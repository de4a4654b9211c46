/-!
# Points of the board

The board has twenty-four points on three rings of eight. Rings are counted from the inside out,
starting at one; the eight places of a ring are counted clockwise, starting at one above the centre.
Point `8 * ring + place - 1` is the one on that ring and place, so the live points are the numbers
from 8 to 31. Numbers outside that range name no point, and every operation of the library that
takes a point is total on them.
-/

set_option autoImplicit false

namespace Morris

/-- The number of a point. -/
abbrev Point := Nat

namespace Point

/-- Ring of a point, one for the innermost. -/
def ring (p : Point) : Nat := p / 8

/-- Place of a point on its ring, from one to eight. -/
def place (p : Point) : Nat := p % 8 + 1

/-- The point at a place of a ring. -/
def ofRing (ring place : Nat) : Point := 8 * ring + place - 1

/-- The twenty-four numbers that name a point. -/
def onBoard (p : Point) : Bool := decide (8 ≤ p ∧ p < 32)

/-- The live points in ascending order. -/
def all : List Point := List.range' 8 24

end Point

end Morris
