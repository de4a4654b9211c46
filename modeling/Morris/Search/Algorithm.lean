import Morris.Error
import Morris.Rule.Setting
import Morris.Search.Negamax

/-!
# Search algorithms

Three ways to search the root to a depth. Alpha-beta takes the full window. Principal variation
search opens a window around a guess of the value and falls back to the full one when the value lies
outside. MTD(f) closes in on the value by passes with a narrow window, each of which moves the lower
or the upper bound. The first two can also split the moves of the root among several workers, which
search them with the full window and share the table.
-/

set_option autoImplicit false

namespace Morris

/-- A search algorithm. -/
inductive Algorithm where
  | alphaBeta
  | pvs
  | mtdf
  deriving DecidableEq, Repr, Inhabited

namespace Algorithm

/-- Name of an algorithm in settings. -/
def text : Algorithm → String
  | alphaBeta => "alphabeta"
  | pvs => "pvs"
  | mtdf => "mtdf"

/-- The algorithms with their names. -/
def choices : List (String × Algorithm) :=
  [alphaBeta, pvs, mtdf].map fun a => (a.text, a)

/-- The algorithm that a text names or numbers. -/
def parse (s : String) : Except Error Algorithm :=
  let key := Text.folded s
  if ["0", "alphabeta", "alpha-beta", "ab"].contains key then .ok alphaBeta
  else if ["1", "pvs"].contains key then .ok pvs
  else if ["2", "mtdf", "mtd(f)"].contains key then .ok mtdf
  else .error (.invalidValue "algorithm" s)

/-- Whether the moves of the root are split among workers. -/
def splitsRoot (a : Algorithm) (threads : Nat) : Bool := a != mtdf && decide (1 < threads)

/-- Descriptive name of an algorithm run with a number of threads. -/
def title (a : Algorithm) (threads : Nat) : String :=
  match a, a.splitsRoot threads with
  | alphaBeta, false => "alpha-beta"
  | alphaBeta, true => "parallel alpha-beta"
  | pvs, false => "pvs"
  | pvs, true => "parallel pvs"
  | mtdf, _ => "mtdf"

/-- How the nodes below the root are searched. -/
def flavour : Algorithm → Search.Flavour
  | pvs => .principal
  | _ => .plain

end Algorithm

namespace Search

/-! ## One worker -/

/-- Search the root with the full window. -/
def fullWindow (setup : Setup) (flavour : Flavour) (depth : Int) (known : Move) (w : Walk) :
    Result × Walk :=
  root setup flavour depth known (-infinite) infinite w

/-- Half the width of the window around a guess. -/
def aspirationWidth : Int := Position.manValue + 1

/-- Search the root within a window around a guess, and with the full one if the value falls
outside. -/
def aspiration (setup : Setup) (depth guess : Int) (w : Walk) : Result × Walk :=
  let alpha := max (guess - aspirationWidth) (-infinite)
  let beta := min (guess + aspirationWidth) infinite
  let (r, w) := root setup .principal depth .none alpha beta w
  if (r.value ≤ alpha ∨ beta ≤ r.value) ∧ ¬w.stopped ∧ ¬r.unique then
    fullWindow setup .principal depth r.move w
  else (r, w)

/-- Width of the window of an MTD(f) pass. -/
def passWidth : Int := Position.manValue

/-- MTD(f) passes, at most `fuel` of them, until the bounds meet. The last value is the guess of the
next pass. -/
def passes (setup : Setup) (depth : Int) :
    Nat → Int → Int → Result → Walk → Result × Walk
  | 0, _, _, last, w => (last, w)
  | fuel + 1, lower, upper, last, w =>
      if upper ≤ lower then (last, w)
      else
        let beta := if last.value = lower then last.value + passWidth else last.value
        let (r, w) := root setup .plain depth last.move (beta - passWidth) beta w
        if r.unique || w.stopped then (r, w)
        else if r.value < beta then passes setup depth fuel lower r.value r w
        else passes setup depth fuel r.value upper r w

/-- Most passes that MTD(f) makes. -/
def passLimit : Nat := 64

/-- MTD(f) from a first guess. -/
def closeIn (setup : Setup) (depth guess : Int) (w : Walk) : Result × Walk :=
  passes setup depth passLimit (-infinite) infinite ⟨guess, .none, false⟩ w

/-! ## Several workers -/

/-- The value of a root move and its place among the ranked moves. -/
structure MoveValue where
  index : Nat
  move : Move
  value : Int

/-- The moves of one worker, searched one after another with the full window until the search is
stopped. -/
def workThrough (setup : Setup) (flavour : Flavour) (depth : Int) :
    List (Nat × Move) → Walk → List MoveValue × Walk
  | [], w => ([], w)
  | (i, m) :: rest, w =>
      if w.stopped then ([], w)
      else
        match w.play? m with
        | none => workThrough setup flavour depth rest w
        | some (flips, w) =>
            let (v, w) :=
              childValue (descend setup flavour (depth - 1)) flips (-infinite) infinite w
            let w := w.takeBack
            if w.stopped then ([], w)
            else
              let (values, w) := workThrough setup flavour depth rest w
              (⟨i, m, v⟩ :: values, w)

/-- Deal the root moves round among workers and let them work one after another, each counting its
own nodes from zero. -/
def dealOut (setup : Setup) (flavour : Flavour) (depth : Int) (moves : List (Nat × Move))
    (workers : Nat) : List Nat → Walk → List MoveValue × Walk
  | [], w => ([], w)
  | k :: rest, w =>
      let before := w.nodes
      let dealt := moves.filter fun m => m.1 % workers == k
      let (values, w) := workThrough setup flavour depth dealt { w with nodes := 0 }
      let (others, w) :=
        dealOut setup flavour depth moves workers rest { w with nodes := before + w.nodes }
      (values ++ others, w)

/-- How the values that several workers find come together, with the walk that is left. -/
abbrev Workforce :=
  Setup → Flavour → Int → List (Nat × Move) → Nat → Walk → List MoveValue × Walk

/-- The workers work one after another. -/
def inTurn : Workforce := fun setup flavour depth moves workers w =>
  dealOut setup flavour depth moves workers (List.range workers) w

/-- The greatest value, and the first move among the ranked ones that has it. -/
def bestOf (values : List MoveValue) : Int × Move :=
  (values.mergeSort fun x y => decide (x.index ≤ y.index)).foldl
    (fun best v => if best.1 < v.value then (v.value, v.move) else best) (-infinite, .none)

/-- Search the root with its moves split among the workers of a workforce. -/
def splitAmong (workforce : Workforce) (setup : Setup) (flavour : Flavour) (threads : Nat)
    (depth : Int) (w : Walk) : Result × Walk :=
  let w := w.visit setup
  let static (move : Move) (w : Walk) : Result × Walk :=
    let (v, w) := staticValue setup depth w
    (⟨v, move, false⟩, w)
  if w.isAtEnd then static .none w
  else
    let key := w.position.state.key
    let ranked := w.position.rankedMoves (w.table.probe key depth (-infinite) infinite).move
    match ranked with
    | [] => static .none w
    | [r] => (⟨uniqueValue, r.move, true⟩, w)
    | _ =>
        let moves := ranked.mapIdx fun i r => (i, r.move)
        let workers := min threads moves.length
        let (values, w) := workforce setup flavour depth moves workers w
        if values.isEmpty then static (bestRanked ranked) w
        else
          let (best, move) := bestOf values
          if values.length = moves.length ∧ ¬w.stopped then
            (⟨best, move, false⟩,
              { w with table := w.table.save key depth (some .exact) best move })
          else (⟨best, move, false⟩, w)

/-- Search the root with its moves split among workers. -/
def split (setup : Setup) (flavour : Flavour) (threads : Nat) (depth : Int) (w : Walk) :
    Result × Walk :=
  splitAmong inTurn setup flavour threads depth w

end Search

/-- Search the root to a depth, given the value of an earlier search if there was one, and a
workforce for an algorithm that splits the root. -/
def Algorithm.searchAmong (workforce : Search.Workforce) (a : Algorithm) (threads : Nat)
    (setup : Search.Setup) (depth : Int) (guess : Option Int) (w : Search.Walk) :
    Search.Result × Search.Walk :=
  if a.splitsRoot threads then Search.splitAmong workforce setup a.flavour threads depth w
  else
    match a, guess with
    | .alphaBeta, _ => Search.fullWindow setup .plain depth .none w
    | .pvs, none => Search.fullWindow setup .principal depth .none w
    | .pvs, some guess => Search.aspiration setup depth guess w
    | .mtdf, guess => Search.closeIn setup depth (guess.getD 0) w

/-- Search the root to a depth, given the value of an earlier search if there was one. -/
def Algorithm.search (a : Algorithm) (threads : Nat) (setup : Search.Setup) (depth : Int)
    (guess : Option Int) (w : Search.Walk) : Search.Result × Search.Walk :=
  a.searchAmong Search.inTurn threads setup depth guess w

end Morris
