import Morris.Bitboard
import Morris.Move.Record

/-!
# Symmetries of the board

The board is mapped onto itself by reflection at its vertical axis, by the exchange of its inner and
outer ring, and by quarter turns. Each symmetry permutes the live points and maps lines onto lines
and neighbours onto neighbours, with or without diagonals. A quarter turn moves every place of a
ring by two.
-/

set_option autoImplicit false

namespace Morris

/-- A symmetry of the board. -/
inductive Symmetry where
  | reflection
  | swapRings
  | quarterTurn
  | halfTurn
  | threeQuarterTurn
  deriving DecidableEq, Repr, Inhabited

namespace Symmetry

/-- The clockwise turn by an angle in degrees, for the angles that are a multiple of a quarter turn
but not of a full one. -/
def rotation? (degrees : Int) : Option Symmetry :=
  if degrees % 360 = 90 then some quarterTurn
  else if degrees % 360 = 180 then some halfTurn
  else if degrees % 360 = 270 then some threeQuarterTurn
  else none

/-- The symmetry that undoes this one. -/
def inverse : Symmetry → Symmetry
  | quarterTurn => threeQuarterTurn
  | threeQuarterTurn => quarterTurn
  | t => t

/-- Image of a point. -/
def onPoint (t : Symmetry) (p : Point) : Point :=
  match t with
  | reflection => p / 8 * 8 + (8 - p % 8) % 8
  | swapRings => (4 - p / 8) * 8 + p % 8
  | quarterTurn => p / 8 * 8 + (p % 8 + 2) % 8
  | halfTurn => p / 8 * 8 + (p % 8 + 4) % 8
  | threeQuarterTurn => p / 8 * 8 + (p % 8 + 6) % 8

/-- Image of a set of points. -/
def onSet (t : Symmetry) (b : Bitboard) : Bitboard := .ofPoints (b.points.map t.onPoint)

/-- Image of a move; codes that name no move are their own image. -/
def onMove (t : Symmetry) (m : Move) : Move :=
  if !m.isProper then m
  else
    match m.kind with
    | .place => .place (t.onPoint m.target)
    | .slide => .slide (t.onPoint m.origin) (t.onPoint m.target)
    | .remove => .remove (t.onPoint m.target)

/-- Image of a record: that of its move, or the record itself when it writes none. -/
def onRecord (t : Symmetry) (record : String) : String :=
  match Move.ofText? record.toList with
  | some m => (t.onMove m).text
  | none => record

end Symmetry

end Morris
