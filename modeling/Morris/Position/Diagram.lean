import Morris.Position.Basic
import Morris.Text.Number

/-!
# Diagrams

A position is drawn as thirteen lines of board, with a letter on each point, and three lines that
give the turn, the counts and the key.
-/

set_option autoImplicit false

namespace Morris.Position

/-- A line of the board: letters of points with text between them. -/
def boardLine (pos : Position) (lead : String) (parts : List (Point × String)) : String :=
  parts.foldl (fun line part => line.push (pos.contentAt part.1).symbol ++ part.2) lead

/-- The lines that draw a position. -/
def diagram (pos : Position) : List String :=
  let s := pos.state
  let wide := "----------"
  let middle := "------"
  [pos.boardLine "" [(31, wide), (24, wide), (25, "")],
   "|          |          |",
   pos.boardLine "|   " [(23, middle), (16, middle), (17, "   |")],
   "|   |      |      |   |",
   pos.boardLine "|   |   " [(15, "--"), (8, "--"), (9, "   |   |")],
   "|   |   |     |   |   |",
   pos.boardLine ""
     [(30, "---"), (22, "---"), (14, "     "), (10, "---"), (18, "---"), (26, "")],
   "|   |   |     |   |   |",
   pos.boardLine "|   |   " [(13, "--"), (12, "--"), (11, "   |   |")],
   "|   |      |      |   |",
   pos.boardLine "|   " [(21, middle), (20, middle), (19, "   |")],
   "|          |          |",
   pos.boardLine "" [(29, wide), (28, wide), (27, "")],
   s!"side: {s.side.colour.name}  phase: {s.phase.name}  action: {s.action.name}",
   s!"in hand: {s.inHand.white}/{s.inHand.black}  on board: {s.onBoard.white}/{s.onBoard.black}"
     ++ s!"  to remove: {s.owed.white}/{s.owed.black}",
   "key: " ++ Text.hex s.key]

end Morris.Position
