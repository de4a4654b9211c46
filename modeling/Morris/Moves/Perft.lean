import Morris.Moves.Legal

/-!
# Counting the tree of moves

`perft` walks the tree of legal moves below a position to a depth and counts its leaves: the
positions at that depth, the finished ones and those without a legal move.
-/

set_option autoImplicit false

namespace Morris

/-- Counts over the leaves of a tree of moves, with the sum of their keys. -/
structure Perft where
  leaves : Nat := 0
  finished : Nat := 0
  keySum : Key := 0
  deriving DecidableEq, Repr, Inhabited

namespace Perft

/-- The counts of two parts of a tree together. -/
def add (x y : Perft) : Perft :=
  ⟨x.leaves + y.leaves, x.finished + y.finished, x.keySum + y.keySum⟩

/-- The counts of a single leaf. -/
def leaf (pos : Position) : Perft := ⟨1, if pos.isOver then 1 else 0, pos.state.key⟩

end Perft

/-- Counts over the leaves of the tree of moves below a position. -/
def Position.perft : Nat → Position → Perft
  | 0, pos => .leaf pos
  | d + 1, pos =>
      let moves := pos.legalMoves
      if pos.isOver || moves.isEmpty then .leaf pos
      else
        moves.foldl
          (fun total m =>
            match pos.apply m with
            | .ok next => total.add (perft d next)
            | .error _ => total)
          {}

end Morris
