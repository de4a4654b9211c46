import Morris.Error
import Morris.Move
import Morris.Text.Blank
import Morris.Text.Number

/-!
# Records of moves

A point is written `(ring,place)`. A placement is written as its point, a slide as its two points
with an arrow between them, and a removal as its point after a minus sign. Blanks are allowed around
the record, around each point and around each number of it, and the numbers may have a plus sign and
leading zeros. A slide from a point to itself has no record.
-/

set_option autoImplicit false

namespace Morris

open Morris.Text (trim after? before? cutAt? natural?)

/-- Text of a point. -/
def Point.text (p : Point) : String := s!"({p.ring},{p.place})"

/-- The point that a text writes. -/
def Point.ofText? (cs : List Char) : Option Point :=
  ((after? ['('] (trim cs)).bind (before? [')'])).bind fun inner =>
    (cutAt? [','] inner).bind fun (left, right) =>
      (natural? UInt64.size (trim left)).bind fun ring =>
        (natural? UInt64.size (trim right)).bind fun place =>
          if (1 ≤ ring ∧ ring ≤ 3) ∧ (1 ≤ place ∧ place ≤ 8) then some (Point.ofRing ring place)
          else none

namespace Move

/-- Record of a move. -/
def text (m : Move) : String :=
  match m.kind with
  | .place => Point.text m.target
  | .slide => Point.text m.origin ++ "->" ++ Point.text m.target
  | .remove => "-" ++ Point.text m.target

/-- The move that a record without blanks around it writes. -/
def ofTrimmed? (cs : List Char) : Option Move :=
  match after? ['-'] cs with
  | some rest => (Point.ofText? rest).map remove
  | .none =>
      match cutAt? ['-', '>'] cs with
      | some (left, right) =>
          (Point.ofText? left).bind fun a =>
            (Point.ofText? right).bind fun b => if a = b then .none else some (slide a b)
      | .none => (Point.ofText? cs).map place

/-- The move that a record writes. -/
def ofText? (cs : List Char) : Option Move := ofTrimmed? (trim cs)

/-- Read a record; an unreadable one is reported without the blanks around it. -/
def parse (s : String) : Except Error Move :=
  match ofText? s.toList with
  | some m => .ok m
  | .none => .error (.unreadableRecord (Text.trimString s))

end Move

end Morris
