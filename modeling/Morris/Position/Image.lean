import Morris.Position.Basic
import Morris.Symmetry

/-!
# Images of positions

A symmetry of the board takes a position to its image: the men, the marks, the picked-up man, the
last move and what the rules remember of mills move with the points, and the rest stays. The sets of
points and the key are made anew from the board of the image.
-/

set_option autoImplicit false

namespace Morris.Position

/-- Read the sets of points and the key off the board. -/
def rebuild (pos : Position) : Position :=
  pos.mapState fun s => { s with toLayout := s.toLayout.rebuildSets, key := pos.keyFromScratch }

/-- Move what stands on the points and what is remembered of them by a symmetry. -/
def moved (pos : Position) (t : Symmetry) : Position :=
  pos.mapState fun s =>
    { s with
      board := Point.all.foldl
        (fun board p => board.setIfInBounds (t.onPoint p) (pos.contentAt p)) s.board
      selected := s.selected.map t.onPoint
      lastMill := s.lastMill.map fun l => l.map fun (a, b) => (t.onPoint a, t.onPoint b)
      usedLines := s.usedLines.map t.onSet
      lastMove := t.onMove s.lastMove }

/-- Image of a position under a symmetry of the board. -/
def image (pos : Position) (t : Symmetry) : Position := (pos.moved t).rebuild

/-- Image under the rotation by an angle, if the angle has one. -/
def rotate? (pos : Position) (degrees : Int) : Option Position :=
  (Symmetry.rotation? degrees).map pos.image

end Morris.Position
