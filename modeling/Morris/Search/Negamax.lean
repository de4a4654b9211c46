import Morris.Search.Basic

/-!
# Alpha-beta search

The search to a fixed depth of a position and everything below it. A window of values is kept at
every node and moves outside it are cut off; a value returned from outside the window is still a
bound on the true one. Results are shared through the table. In the principal flavour, children
after the first are tried with a narrow window and searched again only if they fall inside the real
one.

The root is searched by `root`, which also says which move is best and whether it is the only one;
every other node by `node`, where a repeated position counts as a draw.
-/

set_option autoImplicit false

namespace Morris.Search

/-- How children after the first are searched. -/
inductive Flavour where
  | plain
  | principal
  deriving DecidableEq, Repr, Inhabited

/-- Width of the window of a child after the first in the principal flavour. -/
def scoutWidth : Int := Position.manValue

/-- A value that grows away from zero with the depth left, so that quick wins and slow losses are
preferred. -/
def biased (value depth : Int) : Int := if 0 < value then value + depth else value - depth

/-- The biased static value of the current position. -/
def staticValue (setup : Setup) (depth : Int) (w : Walk) : Int × Walk :=
  let (v, w) := w.evaluate setup
  (biased v depth, w)

/-- Whether a limit on quiet moves has been passed. -/
def isPastMoveLimit (pos : Position) : Bool :=
  decide (pos.rule.moveLimit < pos.state.quiet) || pos.isEndgameLimitReached

/-- Whether the current position has occurred before, in the line searched or in the game. -/
def isRepetition (setup : Setup) (w : Walk) : Bool :=
  w.position.rule.threefoldRepetition && w.position.state.phase == .moving
    && (w.position.repeatsIn w.saved || setup.gameKeys.contains w.position.state.key)

/-- A node at the horizon, where only the quiet search goes on. -/
def horizon (setup : Setup) (depth : Int) : Searcher := fun alpha beta w =>
  let w := w.visit setup
  if w.isAtEnd then staticValue setup depth w
  else quiet setup setup.quietDepth alpha beta w

/-- A child after the first in the principal flavour: a narrow window above alpha, and the real one
if the value falls inside it. -/
def scout (search : Searcher) (flips : Bool) : Searcher := fun alpha beta w =>
  let (v, w) := childValue search flips alpha (alpha + scoutWidth) w
  if alpha < v ∧ v < beta ∧ ¬w.stopped then childValue search flips alpha beta w
  else (v, w)

/-- A child, by the flavour and the number of moves before it. -/
def child (flavour : Flavour) (search : Searcher) (index : Nat) (flips : Bool) : Searcher :=
  if flavour = .principal ∧ 0 < index then scout search flips else childValue search flips

/-- What a value says about the true one, given the window it was searched in. -/
def boundOf (alpha beta value : Int) : Bound :=
  if value ≤ alpha then .upper else if beta ≤ value then .lower else .exact

/-- The value of a node whose moves have been searched within a window; a complete search is
recorded. -/
def finishNode (setup : Setup) (depth alpha beta : Int) (p : Progress) (w : Walk) : Int × Walk :=
  if w.stopped then
    if p.best = -infinite then staticValue setup depth w else (p.best, w)
  else
    let key := w.position.state.key
    let bound := boundOf alpha beta p.best
    (p.best, { w with table := w.table.save key depth (some bound) p.best p.bestMove })

/-- Take the value of a node from the table, or else search its moves with a way to search its
children. -/
def expand (setup : Setup) (child : Nat → Bool → Searcher) (depth : Int) : Searcher :=
  fun alpha beta w =>
    let probe := w.table.probe w.position.state.key depth alpha beta
    match probe.cutoff with
    | some v => (v, w)
    | none =>
        let ranked := w.position.rankedMoves probe.move
        if ranked.isEmpty then staticValue setup depth w
        else
          let (p, w) := tryMoves child probe.beta 0 ranked { alpha := probe.alpha } w
          finishNode setup depth probe.alpha probe.beta p w

/-- Alpha-beta search of a node below the root with some depth left. -/
def node (setup : Setup) (flavour : Flavour) : Nat → Searcher
  | 0, alpha, beta, w => horizon setup 0 alpha beta w
  | d + 1, alpha, beta, w =>
      let depth : Int := d + 1
      let w := w.visit setup
      if w.isAtEnd then staticValue setup depth w
      else
        let drawn := isPastMoveLimit w.position
        let alpha := if drawn then 0 else alpha
        if drawn ∧ beta ≤ alpha then (alpha, w)
        else if isRepetition setup w then (0, w)
        else expand setup (child flavour (node setup flavour d)) depth alpha beta w

/-- Search of a node below the root whatever depth is left. -/
def descend (setup : Setup) (flavour : Flavour) (depth : Int) : Searcher :=
  if depth ≤ 0 then horizon setup depth else node setup flavour depth.toNat

/-- Result of a search from the root. -/
structure Result where
  value : Int
  move : Move
  /-- The root had one legal move and was not searched. -/
  unique : Bool
  deriving DecidableEq, Repr, Inhabited

/-- Search of the root within a window. `known` is the best move of an earlier pass; it stays if no
move of this pass raises alpha. -/
def root (setup : Setup) (flavour : Flavour) (depth : Int) (known : Move) (alpha beta : Int)
    (w : Walk) : Result × Walk :=
  match depth.toNat with
  | 0 =>
      let (v, w) := horizon setup depth alpha beta w
      (⟨v, known, false⟩, w)
  | d + 1 =>
      let w := w.visit setup
      if w.isAtEnd then
        let (v, w) := staticValue setup depth w
        (⟨v, known, false⟩, w)
      else
        let drawn := isPastMoveLimit w.position
        let alpha := if drawn then 0 else alpha
        if drawn ∧ beta ≤ alpha then (⟨alpha, known, false⟩, w)
        else
          let probe := w.table.probe w.position.state.key depth alpha beta
          match probe.cutoff.filter fun _ => probe.move.isProper with
          | some v => (⟨v, probe.move, false⟩, w)
          | none =>
              let ranked := w.position.rankedMoves probe.move
              match ranked with
              | [] =>
                  let (v, w) := staticValue setup depth w
                  (⟨v, known, false⟩, w)
              | [r] => (⟨uniqueValue, r.move, true⟩, w)
              | _ =>
                  let (p, w) :=
                    tryMoves (child flavour (node setup flavour d)) probe.beta 0 ranked
                      { alpha := probe.alpha } w
                  let raised := p.raised.getD known
                  let move :=
                    if raised.isProper then raised
                    else if p.bestMove.isProper then p.bestMove
                    else bestRanked ranked
                  let (v, w) := finishNode setup depth probe.alpha probe.beta p w
                  (⟨v, move, false⟩, w)

end Morris.Search
