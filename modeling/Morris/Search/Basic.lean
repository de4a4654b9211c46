import Morris.Evaluation
import Morris.Moves.Ranked
import Morris.Table

/-!
# Walks through the tree of a game

A search walks through the positions that legal moves lead to. `Setup` is what stays fixed while it
does: the evaluator, the depth of the quiet search, the keys of earlier positions of the game, and
what is to stop it before its end. `Walk` is what changes: the current position and the states to
return to, the table, the counters, and whether the search has been stopped.

`tryMoves` is the loop that every node runs over its moves, given the way to search a child. Values
are for the side to move; since a side that closes a mill moves again, a child's value and window
are turned round only if the side to move changed.
-/

set_option autoImplicit false

namespace Morris

/-- A way to value positions for the side to move. -/
structure Evaluator where
  name : String
  value : Position → Int
  /-- The search is stopped by the evaluation with this number, counted from one. -/
  stopAfter : Option Nat := none

/-- The evaluator by material and, if wanted, mobility. -/
def Evaluator.handcrafted (withMobility : Bool) : Evaluator :=
  { name := "handcrafted", value := Position.valueForMover withMobility }

/-- The evaluator that gives every position the same value for the side to move. -/
def Evaluator.constant (value : Int) : Evaluator := { name := "constant", value := fun _ => value }

/-- The evaluator that values a position by the remainder of its key, from -30 to 30. -/
def Evaluator.byKey : Evaluator :=
  { name := "key", value := fun pos => (pos.state.key.toNat % 61 : Nat) - 30 }

namespace Search

/-- A bound on every value that a search of a game deals with. -/
def infinite : Int := 125

/-- The deepest search. -/
def depthLimit : Int := 40

/-- Value of a position with one legal move, above every value of a won game. -/
def uniqueValue : Int := Position.mate + depthLimit + 1

/-- What stays fixed during a search. -/
structure Setup where
  evaluator : Evaluator
  quietDepth : Nat := 16
  /-- Keys of earlier positions of the game. -/
  gameKeys : List Key := []
  /-- Whether the time for the search is up; the search asks from time to time. -/
  timeIsUp : Bool := false
  /-- The search is asked to stop at the node with this number, counted from one. -/
  stopAt : Option Nat := none

/-- Whether a search is stopped at the node with this number. The time is looked up at every
1024th. -/
def Setup.stopsAt (setup : Setup) (nodes : Nat) : Bool :=
  (nodes % 1024 == 0 && setup.timeIsUp) || setup.stopAt == some nodes

/-- What changes during a search. -/
structure Walk where
  position : Position
  /-- States to return to, the last one first. -/
  saved : List State := []
  table : Table
  nodes : Nat := 0
  evaluations : Nat := 0
  stopped : Bool := false

namespace Walk

/-- Count a node, and stop there if the search is to. -/
def visit (w : Walk) (setup : Setup) : Walk :=
  let nodes := w.nodes + 1
  { w with nodes := nodes, stopped := w.stopped || setup.stopsAt nodes }

/-- Value the current position. -/
def evaluate (w : Walk) (setup : Setup) : Int × Walk :=
  let evaluations := w.evaluations + 1
  (setup.evaluator.value w.position,
    { w with
      evaluations := evaluations
      stopped := w.stopped || setup.evaluator.stopAfter == some evaluations })

/-- Whether the current position is not searched any further. -/
def isAtEnd (w : Walk) : Bool := w.position.isOver || w.stopped

/-- Play a move; also tells whether the side to move changed. A refused move leads nowhere. -/
def play? (w : Walk) (m : Move) : Option (Bool × Walk) :=
  let before := w.position.state.side
  match w.position.makeMove w.saved m with
  | .error _ => none
  | .ok (next, saved) =>
      some (next.state.side != before, { w with position := next, saved := saved })

/-- Take the last move back. -/
def takeBack (w : Walk) : Walk :=
  match w.position.unmakeMove? w.saved with
  | none => w
  | some (before, saved) => { w with position := before, saved := saved }

end Walk

/-- A search of the current position within a window. -/
abbrev Searcher := Int → Int → Walk → Int × Walk

/-- The value of a child for its parent: the window and the value are turned round if the side to
move changed. -/
def childValue (search : Searcher) (flips : Bool) : Searcher := fun alpha beta w =>
  if flips then
    let (v, w) := search (-beta) (-alpha) w
    (-v, w)
  else search alpha beta w

/-- What a node has found so far. -/
structure Progress where
  alpha : Int
  best : Int := -infinite
  bestMove : Move := .none
  /-- The last move that raised `alpha`. -/
  raised : Option Move := none

/-- Search the children of a node one after another, until the window is empty or the search is
stopped. `child` searches the current position, given how many moves precede it and whether the side
to move changed. -/
def tryMoves (child : Nat → Bool → Searcher) (beta : Int) :
    Nat → List RankedMove → Progress → Walk → Progress × Walk
  | _, [], p, w => (p, w)
  | i, r :: rest, p, w =>
      match w.play? r.move with
      | none => tryMoves child beta (i + 1) rest p w
      | some (flips, w) =>
          let (v, w) := child i flips p.alpha beta w
          let w := w.takeBack
          if w.stopped then (p, w)
          else if p.best < v then
            let found := { p with best := v, bestMove := r.move }
            if p.alpha < v then
              let found := { found with raised := some r.move }
              if beta ≤ v then (found, w)
              else tryMoves child beta (i + 1) rest { found with alpha := v } w
            else tryMoves child beta (i + 1) rest found w
          else tryMoves child beta (i + 1) rest p w

/-- Search past the horizon: only owed removals are played, until none is owed or the depth is
used up. -/
def quiet (setup : Setup) : Nat → Searcher
  | 0, _, _, w => (w.visit setup).evaluate setup
  | depth + 1, alpha, beta, w =>
      let w := w.visit setup
      if w.isAtEnd || w.position.state.action != .remove then w.evaluate setup
      else
        let ranked := w.position.rankedMoves .none
        if ranked.isEmpty then w.evaluate setup
        else
          let child := fun (_ : Nat) flips => childValue (quiet setup depth) flips
          let (p, w) := tryMoves child beta 0 ranked { alpha := alpha } w
          if p.best = -infinite then w.evaluate setup else (p.best, w)

end Search

end Morris
