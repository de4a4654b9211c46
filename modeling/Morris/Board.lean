import Morris.Bitboard

/-!
# Lines, neighbours and the order of points

Every board has sixteen lines of three points: four sides on each ring and four cross lines that
join the rings through the middles of the sides. A board with diagonals has four more, through the
corners. Men slide between neighbours: the two next points on the ring, and the point of the same
place on the next ring wherever a line joins the rings there.

`order` lists the live points from the most to the least valuable, group by group; moves are
generated along it. Everything here is fixed by whether the board has diagonals.
-/

set_option autoImplicit false

namespace Morris.Board

/-! ## Lines -/

/-- Points of the sides of the rings and of the cross lines. -/
def plainLines : List (List Point) :=
  [[31, 24, 25], [23, 16, 17], [15, 8, 9], [30, 22, 14], [10, 18, 26], [13, 12, 11],
   [21, 20, 19], [29, 28, 27], [31, 30, 29], [23, 22, 21], [15, 14, 13], [24, 16, 8],
   [12, 20, 28], [9, 10, 11], [17, 18, 19], [25, 26, 27]]

/-- Points of the lines through the corners. -/
def diagonalLines : List (List Point) :=
  [[31, 23, 15], [9, 17, 25], [29, 21, 13], [11, 19, 27]]

/-- Points of every line of a board. -/
def linePoints (diagonals : Bool) : List (List Point) :=
  if diagonals then plainLines ++ diagonalLines else plainLines

/-- The lines of a plain board as sets. -/
def plainLineSets : List Bitboard := (linePoints false).map Bitboard.ofPoints

/-- The lines of a board with diagonals as sets. -/
def diagonalLineSets : List Bitboard := (linePoints true).map Bitboard.ofPoints

/-- The lines of a board as sets of points. -/
def lines (diagonals : Bool) : List Bitboard :=
  if diagonals then diagonalLineSets else plainLineSets

/-- For every line through a point, the set of its two other points. -/
def partnersOf (diagonals : Bool) (p : Point) : List Bitboard :=
  ((linePoints diagonals).filter fun line => line.contains p).map fun line =>
    Bitboard.ofPoints (line.filter fun q => q != p)

/-! ## Neighbours -/

/-- The next point clockwise on the same ring. -/
def clockwise (p : Point) : Point := p / 8 * 8 + (p + 1) % 8

/-- The next point counter-clockwise on the same ring. -/
def counterclockwise (p : Point) : Point := p / 8 * 8 + (p + 7) % 8

/-- The points of the same place on the next rings, the inner one first. -/
def acrossRings (p : Point) : List Point := [p - 8, p + 8].filter Point.onBoard

/-- Neighbours of a point in the order in which slides are tried. On a plain board only the even
places are joined across the rings, and that neighbour comes first. With diagonals every place is;
even places then list the ring first, odd places the rings across. -/
def neighboursOf (diagonals : Bool) (p : Point) : List Point :=
  if !Point.onBoard p then []
  else
    let next := clockwise p
    let previous := counterclockwise p
    if diagonals then
      let onRing := [min next previous, max next previous]
      if p % 2 = 0 then onRing ++ acrossRings p else acrossRings p ++ onRing
    else if p % 2 = 0 then acrossRings p ++ [next, previous]
    else [next, previous]

/-! ## Tables -/

/-- What the geometry says about one point. -/
structure Surroundings where
  neighbours : List Point
  around : Bitboard
  partners : List Bitboard

/-- Surroundings of one point. -/
def surroundingsOf (diagonals : Bool) (p : Point) : Surroundings where
  neighbours := neighboursOf diagonals p
  around := .ofPoints (neighboursOf diagonals p)
  partners := partnersOf diagonals p

/-- Surroundings of the numbers up to the last live point on a plain board. -/
def plainTable : Array Surroundings := ((List.range 32).map (surroundingsOf false)).toArray

/-- Surroundings of the numbers up to the last live point on a board with diagonals. -/
def diagonalTable : Array Surroundings := ((List.range 32).map (surroundingsOf true)).toArray

/-- Surroundings of a point; a number that names none has neither neighbours nor lines. -/
def surroundings (diagonals : Bool) (p : Point) : Surroundings :=
  match (if diagonals then diagonalTable else plainTable)[p]? with
  | some s => s
  | none => ⟨[], .empty, []⟩

/-- Neighbours of a point. -/
def neighbours (diagonals : Bool) (p : Point) : List Point :=
  (surroundings diagonals p).neighbours

/-- Neighbours of a point as a set. -/
def around (diagonals : Bool) (p : Point) : Bitboard := (surroundings diagonals p).around

/-- For every line through a point, the set of its two other points. -/
def partners (diagonals : Bool) (p : Point) : List Bitboard := (surroundings diagonals p).partners

/-- Whether a man on the first point may slide to the second. -/
def isAdjacent (diagonals : Bool) (a b : Point) : Bool := (around diagonals a).contains b

/-! ## Order of the points -/

/-- The points at even places, ring by ring: middle, outer, inner. -/
def crossPoints : List Point × List Point :=
  ([16, 18, 20, 22], [24, 26, 28, 30, 8, 10, 12, 14])

/-- The points at odd places, ring by ring: middle, outer, inner. -/
def cornerPoints : List Point × List Point :=
  ([17, 19, 21, 23], [25, 27, 29, 31, 9, 11, 13, 15])

/-- The four groups of points in order of value. Corners carry more lines on a board with diagonals
and lead there. -/
def groups (diagonals : Bool) : List (List Point) :=
  let (first, second) :=
    if diagonals then (cornerPoints, crossPoints) else (crossPoints, cornerPoints)
  [first.1, first.2, second.1, second.2]

/-- Number of points in each group. -/
def groupSizes : List Nat := [4, 8, 4, 8]

/-- The live points from the most to the least valuable. -/
def order (diagonals : Bool) : List Point := (groups diagonals).flatten

/-- The four points of the middle ring on which most lines meet. -/
def isStar (diagonals : Bool) (p : Point) : Bool := ((groups diagonals).head?.getD []).contains p

end Morris.Board
