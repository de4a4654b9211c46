import Morris.Position.Mill

/-!
# Turns and endings

The changes that follow a move: men are put on points and taken off, the turn passes or stays, the
placing phase ends, and the game ends by loss of material, by a limit on quiet moves or by a blocked
side. Every change keeps the counts and the key up to date.
-/

set_option autoImplicit false

namespace Morris.Position

/-! ## The board -/

/-- Fill an empty point with a man or a mark. -/
def fill (pos : Position) (p : Point) (c : Content) : Position :=
  pos.mapState fun s =>
    { s with toLayout := s.toLayout.fill p c, key := s.key ^^^ Key.word c p }

/-- Put a man on an empty point. -/
def putMan (pos : Position) (p : Point) (c : Side) : Position := pos.fill p c.man

/-- Bar an empty point. -/
def putMark (pos : Position) (p : Point) : Position := pos.fill p .marked

/-- Empty a point. -/
def vacate (pos : Position) (p : Point) : Position :=
  let content := pos.contentAt p
  pos.mapState fun s =>
    { s with toLayout := s.toLayout.vacate p, key := s.key ^^^ Key.word content p }

/-- Lift every bar. -/
def clearMarks (pos : Position) : Position := pos.state.marked.points.foldl vacate pos

/-! ## The turn -/

/-- Give the turn to a side. It places while it has men in hand and slides otherwise, unless it owes
a removal. -/
def giveTurn (pos : Position) (c : Side) : Position :=
  let turned := pos.mapState fun s =>
    { s with
      side := c
      key := if s.side = c then s.key else s.key ^^^ Key.sideWord
      phase := if s.inHand.get c = 0 then .moving else .placing
      action :=
        if s.owed.get c ≠ 0 then .remove
        else if s.inHand.get c = 0 then .select
        else .place }
  turned.refreshKey

/-- Give the turn to the side that has it. -/
def keepTurn (pos : Position) : Position := pos.giveTurn pos.state.side

/-- Give the turn to the other side. -/
def passTurn (pos : Position) : Position := pos.giveTurn pos.state.side.other

/-- End the game. -/
def finish (pos : Position) (winner : Colour) (ending : Ending) : Position :=
  pos.mapState fun s => { s with phase := .finished, winner := winner, ending := ending }

/-! ## The end of placing -/

/-- The side that moves first after placing. -/
def firstMover (rule : Rule) : Side := if rule.defenderMovesFirst then .black else .white

/-- Removals that White and Black owe for their mills once placing ends. With mills on both sides
each owes as many as the smaller number of mills, and the side with more mills one more; a side that
alone has mills owes two and the other one; without any mill each owes one. -/
def removalsForMills : Nat → Nat → PerSide Nat
  | 0, 0 => ⟨1, 1⟩
  | _, 0 => ⟨2, 1⟩
  | 0, _ => ⟨1, 2⟩
  | w, b => if b < w then ⟨b + 1, b⟩ else if w < b then ⟨w, w + 1⟩ else ⟨w, b⟩

/-- Let both sides owe removals for their mills. Without any mill each gives up one of its own
men. -/
def oweForMills (pos : Position) : Position :=
  let white := pos.millCount .white
  let black := pos.millCount .black
  let owed := pos.mapState fun s =>
    { s with
      owed := removalsForMills white black
      takesOwn := .both (white == 0 && black == 0) }
  owed.refreshKey

/-- Rules under which the turn goes on as before when placing ends, unless Black moves first. -/
def keepsTurnAfterPlacing (rule : Rule) : Bool :=
  rule.millAction == .takeFromHandAndPass
    || (rule.millAction == .takeFromHandAndMove && rule.mayRemoveMultiple)
    || rule.mayMoveWhilePlacing

/-- Whether nothing is left to place and nothing owed. -/
def isPlacingDone (pos : Position) : Bool :=
  pos.state.phase == .placing
    && pos.state.inHand.white == 0 && pos.state.inHand.black == 0
    && pos.state.owed.white == 0 && pos.state.owed.black == 0

/-- Leave the placing phase if it is done and the rule says who moves first then. -/
def endPlacing? (pos : Position) : Option Position :=
  if !pos.isPlacingDone then none
  else
    match pos.rule.millAction with
    | .markPoint => some (pos.clearMarks.giveTurn (firstMover pos.rule))
    | .countMillsLater => some (pos.oweForMills.giveTurn (firstMover pos.rule))
    | _ =>
        if keepsTurnAfterPlacing pos.rule && !pos.rule.defenderMovesFirst then none
        else some (pos.giveTurn (firstMover pos.rule))

/-- Leave the placing phase if it is done, or pass the turn. -/
def endPlacingOrPass (pos : Position) : Position := pos.endPlacing?.getD pos.passTurn

/-! ## The end of the game -/

/-- Whether a side has too few men left, hand included. -/
def isBeaten (pos : Position) (c : Side) : Bool :=
  decide (pos.state.onBoard.get c + pos.state.inHand.get c < pos.rule.leastCount)

/-- Whether the rule has a shorter limit for endgames and the position has reached it. -/
def isEndgameLimitReached (pos : Position) : Bool :=
  decide (pos.rule.endgameMoveLimit < pos.rule.moveLimit) && pos.isEndgame
    && decide (pos.rule.endgameMoveLimit ≤ pos.state.quiet)

/-- Let the side to move owe a removal that frees it. -/
def oweFreeing (pos : Position) : Position :=
  let owed := pos.mapState fun s => { s with owed := s.owed.set s.side 1 }
  owed.refreshKey

/-- Turn to removal if the side to move owes one. -/
def turnToRemoval (pos : Position) : Position :=
  if pos.state.owed.get pos.state.side = 0 then pos
  else pos.mapState fun s => { s with action := .remove }

/-- What a rule does with a side that cannot slide. -/
def resolveBlocked (pos : Position) : Position :=
  let us := pos.state.side
  match pos.rule.stalemateAction with
  | .lose => pos.finish us.other.colour .noMove
  | .draw => pos.finish .draw .drawnByStalemate
  | .pass => pos.passTurn.turnToRemoval
  | .removeAndMove =>
      (pos.mapState fun s => { s with freesMover := true }).oweFreeing.turnToRemoval
  | .removeAndPass => pos.oweFreeing.turnToRemoval

/-- Apply the rules that end a game in progress or resolve a blocked side. -/
def settle (pos : Position) : Position :=
  match pos.state.phase with
  | .ready | .finished => pos
  | _ =>
      if pos.isBeaten .white then pos.finish .black .fewMen
      else if pos.isBeaten .black then pos.finish .white .fewMen
      else if pos.rule.moveLimit ≤ pos.state.quiet then pos.finish .draw .drawnByMoveLimit
      else if pos.isEndgameLimitReached then pos.finish .draw .drawnByEndgameLimit
      else if pos.state.phase == .moving && pos.state.action == .select
          && pos.isBlocked pos.state.side then pos.resolveBlocked
      else pos.turnToRemoval

/-- What a rule does when the board fills up while men are being placed. -/
def resolveFullBoard (pos : Position) : Position :=
  let bothOwe := fun (q : Position) => q.mapState fun s => { s with owed := .both 1 }
  match pos.rule.fullBoardAction with
  | .firstSideLoses => pos.finish .black .boardFull
  | .firstThenSecondRemove => (bothOwe pos).passTurn
  | .secondThenFirstRemove => (bothOwe pos).keepTurn
  | .moverRemoves =>
      let turned := pos.giveTurn (firstMover pos.rule)
      (turned.mapState fun s => { s with owed := s.owed.set s.side 1 }).keepTurn
  | .draw => pos.finish .draw .drawnByFullBoard

end Morris.Position
