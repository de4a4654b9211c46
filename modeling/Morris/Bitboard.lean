import Morris.Point

/-!
# Sets of points

A set of points is kept as one machine word whose bit `p` says whether the point `p` belongs to it.
`contains` is the membership view in which the other operations are read; numbers from 32 on belong
to no set. A line of the board is itself such a set, and a side owns it when its men cover it.
-/

set_option autoImplicit false

namespace Morris

/-- A set of points, one bit a point. -/
structure Bitboard where
  bits : UInt32
  deriving DecidableEq, Repr, Inhabited

namespace Bitboard

/-- The set without points. -/
def empty : Bitboard := ⟨0⟩

/-- Whether a point belongs to the set. -/
def contains (b : Bitboard) (p : Point) : Bool := b.bits.toBitVec.getLsbD p

/-- The set of one point. -/
def single (p : Point) : Bitboard := ⟨UInt32.ofNat (1 <<< p)⟩

/-- Points of either set. -/
def union (a b : Bitboard) : Bitboard := ⟨a.bits ||| b.bits⟩

/-- Points of both sets. -/
def inter (a b : Bitboard) : Bitboard := ⟨a.bits &&& b.bits⟩

/-- Points outside the set. -/
def compl (b : Bitboard) : Bitboard := ⟨~~~b.bits⟩

/-- Add a point. -/
def insert (b : Bitboard) (p : Point) : Bitboard := b.union (single p)

/-- Take a point away. -/
def erase (b : Bitboard) (p : Point) : Bitboard := b.inter (single p).compl

/-- Whether the set has no point. -/
def isEmpty (b : Bitboard) : Bool := b.bits == 0

/-- Whether the set holds every point of a non-empty mask. No set covers the empty mask. -/
def covers (b mask : Bitboard) : Bool := !mask.isEmpty && b.inter mask == mask

/-- Points of the set in ascending order. -/
def points (b : Bitboard) : List Point := (List.range 32).filter b.contains

/-- Number of points of the set. -/
def count (b : Bitboard) : Nat := b.points.length

/-- The set of the points of a list. -/
def ofPoints (ps : List Point) : Bitboard := ps.foldl insert empty

end Bitboard

end Morris
