import Morris.Bitboard
import Morris.Side

/-!
# Layouts

A `Layout` says where the men and marks stand and how many men each side has. It keeps the same
facts in several forms, each of which some question is quick to answer from: what stands on every
number, the points of each side, the marks and the points in use as sets, and the men counted.

A man or a mark is put on a point by `fill` and taken off by `vacate`, which change all forms of the
board at once; the counts are left to the caller. `rebuildSets` makes the sets anew from the board.
-/

set_option autoImplicit false

namespace Morris

/-- Number of the places that a board has room for; only those of live points are used. -/
abbrev Layout.room : Nat := 40

/-- Where the men and marks stand and how many men each side has. -/
structure Layout where
  /-- What stands on each number. -/
  board : Vector Content Layout.room := Vector.replicate Layout.room .empty
  /-- Points with a man of each side. -/
  men : PerSide Bitboard := .both .empty
  /-- Points barred until placing ends. -/
  marked : Bitboard := .empty
  /-- Points with a man or a mark. -/
  occupied : Bitboard := .empty
  onBoard : PerSide Nat := .both 0
  inHand : PerSide Nat := .both 0
  deriving DecidableEq, Repr, Inhabited

namespace Layout

/-- What stands on a point. -/
def content (l : Layout) (p : Point) : Content := l.board[p]?.getD .empty

/-- Fill an empty point with a man or a mark. -/
def fill (l : Layout) (p : Point) (c : Content) : Layout :=
  { l with
    board := l.board.setIfInBounds p c
    men :=
      match c with
      | .white => { l.men with white := l.men.white.insert p }
      | .black => { l.men with black := l.men.black.insert p }
      | _ => l.men
    marked := if c = .marked then l.marked.insert p else l.marked
    occupied := l.occupied.insert p }

/-- Empty a point. -/
def vacate (l : Layout) (p : Point) : Layout :=
  { l with
    board := l.board.setIfInBounds p .empty
    men := l.men.map (·.erase p)
    marked := l.marked.erase p
    occupied := l.occupied.erase p }

/-- The live points with some content. -/
def pointsWith (l : Layout) (wanted : Content → Bool) : Bitboard :=
  .ofPoints (Point.all.filter fun p => wanted (l.content p))

/-- Read the sets of points off the board. -/
def rebuildSets (l : Layout) : Layout :=
  { l with
    men := ⟨l.pointsWith (· == .white), l.pointsWith (· == .black)⟩
    marked := l.pointsWith (· == .marked)
    occupied := l.pointsWith (· != .empty) }

end Layout

end Morris
