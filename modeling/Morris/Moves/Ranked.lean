import Morris.Moves.Legal

/-!
# Ranked moves

A search tries promising moves first. Each legal move gets a score from the mills it closes, blocks
or opens up, and `rankedMoves` lists them by falling score; moves of equal score keep their order.
A move remembered from an earlier search of the position outranks all others.
-/

set_option autoImplicit false

namespace Morris

/-- A move with its score. -/
structure RankedMove where
  move : Move
  score : Int
  deriving DecidableEq, Repr, Inhabited

namespace Position

/-- Score of the remembered move. -/
def rememberedScore : Int := 100

/-- Score of closing one mill. -/
def closingScore : Int := 11

/-- Score of blocking one mill of the other side. -/
def blockingScore : Int := 10

/-- Score of an early placement on a point where most lines meet. -/
def starScore : Int := 11

/-- Score of a removal: better beside own men and free points when it opens a mill of the mover,
worse when the removed man would close one among its own. -/
def removalScore (pos : Position) (p : Point) (closed : Nat) : Int :=
  let us := pos.state.side
  let own : Int := pos.ownAround p
  let foes : Int := pos.foesAround p
  let gain := if 0 < closed ∧ foes = 0 then 1 + own else 0
  let loss :=
    if 0 < pos.potentialMills p (some us.other) 0 ∧ 2 ≤ foes then
      foes + if own = 0 then 1 else 0
    else 0
  gain - loss + pos.freeAround p

/-- Score of going to a point: for the mills closed there or, without any, for those blocked. After
placing, blocking counts only on a point hemmed in by the other side. -/
def arrivalScore (pos : Position) (p : Point) (closed : Nat) : Int :=
  if 0 < closed then closingScore * closed
  else
    let blocked : Int := pos.potentialMills p (some pos.state.side.other) 0
    if pos.state.phase == .placing && !pos.rule.mayMoveWhilePlacing then blockingScore * blocked
    else if pos.foesAround p == (if p % 2 = 0 then 3 else 2) then blockingScore * blocked
    else 0

/-- Whether star points still count: on a board with diagonals, before Black has two men. -/
def starsCount (pos : Position) : Bool :=
  pos.rule.hasDiagonals && decide (pos.state.onBoard.black < 2)

/-- Score of a move, given the remembered one. -/
def scoreOf (pos : Position) (remembered m : Move) : Int :=
  if m = remembered then rememberedScore
  else
    let closed := pos.potentialMills m.target (some pos.state.side) m.origin
    match m.kind with
    | .remove => pos.removalScore m.target closed
    | .slide => pos.arrivalScore m.target closed
    | .place =>
        pos.arrivalScore m.target closed
          + if pos.starsCount && Board.isStar pos.rule.hasDiagonals m.target then starScore else 0

/-- The legal moves by falling score. -/
def rankedMoves (pos : Position) (remembered : Move) : List RankedMove :=
  (pos.legalMoves.map fun m => (⟨m, pos.scoreOf remembered m⟩ : RankedMove)).mergeSort
    fun x y => decide (y.score ≤ x.score)

end Position

/-- The first of a list of ranked moves, or the absent move. -/
def bestRanked (ranked : List RankedMove) : Move :=
  match ranked with
  | [] => .none
  | r :: _ => r.move

end Morris
