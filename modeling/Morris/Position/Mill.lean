import Morris.Position.Basic

/-!
# Mills, freedom and flight

A mill is a line whose three points hold men of one side. This module counts the mills that a side
has or would have, and says when a side may fly, when it is blocked, and when an owed removal is one
that frees a blocked side instead of one earned by a mill.
-/

set_option autoImplicit false

namespace Morris.Position

/-! ## Mills -/

/-- Lines through a point whose two other points belong to a set. -/
def linesWithin (pos : Position) (p : Point) (owned : Bitboard) : Nat :=
  (Board.partners pos.rule.hasDiagonals p).countP fun pair => owned.covers pair

/-- The side of the man on a point. -/
def sideAt? (pos : Position) (p : Point) : Option Side := (pos.colourAt p).side?

/-- Mills through the man on a point. -/
def millsAt (pos : Position) (p : Point) : Nat :=
  match pos.sideAt? p with
  | some c => pos.linesWithin p (pos.men c)
  | none => 0

/-- Mills through a point if one side stood there and had left another point. Without a side it is
that of the man on the point. Where a line scores once, a named side gains nothing from the lines
that the side to move has used. -/
def potentialMills (pos : Position) (p : Point) (c : Option Side) (vacated : Point) : Nat :=
  match c with
  | some c =>
      let owned := (pos.men c).erase vacated
      if pos.rule.oneTimeMills then
        let used := pos.state.usedLines.get pos.state.side
        (Board.partners pos.rule.hasDiagonals p).countP fun pair =>
          owned.covers pair && !used.covers (pair.insert p)
      else pos.linesWithin p owned
  | none =>
      match pos.sideAt? p with
      | some c => pos.linesWithin p ((pos.men c).erase vacated)
      | none => 0

/-- Whether every man of a side stands in a mill. -/
def allInMills (pos : Position) (c : Side) : Bool :=
  (pos.men c).points.all fun p => decide (0 < pos.millsAt p)

/-- Number of mills of a side. -/
def millCount (pos : Position) (c : Side) : Nat :=
  (Board.lines pos.rule.hasDiagonals).countP fun line => (pos.men c).covers line

/-! ## Surroundings -/

/-- Whether a neighbour of a point has this owner. -/
def touches (pos : Position) (p : Point) (c : Colour) : Bool :=
  (pos.neighbours p).any fun q => pos.colourAt q == c

/-- Neighbours of a point that hold a man of the side to move. -/
def ownAround (pos : Position) (p : Point) : Nat :=
  (pos.neighbours p).countP fun q => pos.contentAt q == pos.state.side.man

/-- Neighbours of a point that hold a man of the other side. -/
def foesAround (pos : Position) (p : Point) : Nat :=
  (pos.neighbours p).countP fun q => pos.contentAt q == pos.state.side.other.man

/-- Neighbours of a point that are marked. -/
def marksAround (pos : Position) (p : Point) : Nat :=
  (pos.neighbours p).countP fun q => pos.contentAt q == .marked

/-- Neighbours of a point that are empty. -/
def freeAround (pos : Position) (p : Point) : Nat :=
  (pos.neighbours p).countP fun q => pos.contentAt q == .empty

/-- Whether a side may jump to any empty point. -/
def canFly (pos : Position) (c : Side) : Bool :=
  pos.rule.mayFly && decide (pos.state.onBoard.get c ≤ pos.rule.flyCount)
    && pos.state.inHand.get c == 0

/-- Men on the board. -/
def totalOnBoard (pos : Position) : Nat := pos.state.onBoard.white + pos.state.onBoard.black

/-- Whether a side can slide nowhere: the board is full, or the side is too large to fly and none of
its men has an empty neighbour. -/
def isBlocked (pos : Position) (c : Side) : Bool :=
  if 24 ≤ pos.totalOnBoard then true
  else if pos.rule.mayFly && decide (pos.state.onBoard.get c ≤ pos.rule.flyCount) then false
  else
    let free := pos.occupied.compl
    (pos.men c).points.all fun p => ((Board.around pos.rule.hasDiagonals p).inter free).isEmpty

/-- Whether a side is down to three men after placing. -/
def isEndgame (pos : Position) : Bool :=
  pos.state.phase != .placing && (pos.state.onBoard.white == 3 || pos.state.onBoard.black == 3)

/-! ## Removals that free a side -/

/-- Whether the placing phase ends on a full board without a mill of Black, under a rule that
answers a full board with removals. -/
def isFullBoardRemoval (pos : Position) : Bool :=
  pos.rule.pieceCount == 12
    && (pos.rule.fullBoardAction != .firstSideLoses && pos.rule.fullBoardAction != .draw)
    && pos.state.phase == .placing
    && pos.state.inHand.white == 0 && pos.state.inHand.black == 0
    && pos.millCount .black == 0

/-- Whether the owed removal answers a full board or a blocked side instead of a mill. -/
def isFreeingRemoval (pos : Position) : Bool :=
  pos.isFullBoardRemoval
    || (pos.rule.stalemateAction.removes
      && (pos.state.freesMover || pos.isBlocked pos.state.side))

/-- Whether a slide would go back into the mill that its man has just come out of, under a rule that
forbids it. -/
def returnsToMill (pos : Position) (a b : Point) : Bool :=
  let us := pos.state.side
  if pos.rule.restrictRepeatedMills && pos.state.lastMill.get us == some (b, a) then
    let after := ((pos.men us).erase a).insert b
    decide (0 < pos.linesWithin b after)
      && (decide (0 < pos.millsAt a) || decide (0 < pos.linesWithin a after))
  else false

end Morris.Position
