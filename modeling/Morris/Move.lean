import Morris.Point

/-!
# Moves

A move is one signed word of 32 bits. A placement on `p` is the number `p`, a slide from `a` to `b`
is `256 * a + b`, and the removal of the man on `p` is `-p`, so the three kinds of move on live
points never share a code. Every word is a move in this sense; `isProper` tells those that name one
from the two reserved codes and from slides that go nowhere.
-/

set_option autoImplicit false

namespace Morris

/-- A move, kept as its signed 32-bit code. -/
structure Move where
  code : Int
  deriving DecidableEq, Repr, Inhabited

/-- The three kinds of move. -/
inductive Move.Kind where
  | place
  | slide
  | remove
  deriving DecidableEq, Repr, Inhabited

namespace Move

/-- The signed number that a word of 32 bits stands for, given any number with the same low bits. -/
def signedWord (n : Int) : Int := n.bmod UInt32.size

/-- The absent move. -/
def none : Move := ⟨0⟩

/-- The reserved code of a passed turn. -/
def pass : Move := ⟨65⟩

/-- Place a man on a point. -/
def place (p : Point) : Move := ⟨signedWord p⟩

/-- Slide or fly a man from one point to another. -/
def slide (a b : Point) : Move := ⟨signedWord (a <<< 8 ||| b : Nat)⟩

/-- Remove the man on a point. -/
def remove (p : Point) : Move := ⟨-signedWord p⟩

/-- Kind of a code: negative codes are removals, and a code with a ring in its high byte is a
slide. -/
def kind (m : Move) : Kind :=
  if m.code < 0 then .remove
  else if m.code.toNat / 256 % 32 ≠ 0 then .slide
  else .place

/-- Starting point of a slide, zero for the other kinds. -/
def origin (m : Move) : Point := if m.code < 0 then 0 else m.code.toNat / 256 % 128

/-- Point that the move fills or, for a removal, empties. -/
def target (m : Move) : Point := m.code.natAbs % 256

/-- Whether the code names a move: it is not reserved, and it does not end where it starts. -/
def isProper (m : Move) : Bool := m != none && m != pass && m.origin != m.target

end Move

end Morris
