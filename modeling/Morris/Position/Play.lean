import Morris.Position.Turn

/-!
# Playing moves

The operations by which a player changes a position: putting a man down, picking one up, sliding,
removing, giving up. Each either returns the changed position or refuses, and a refusal is decided
before anything is changed, so that the position stays as it was. `apply` plays a move of any kind;
`makeMove` also saves the state before it, and `unmakeMove?` brings the last saved state back.
-/

set_option autoImplicit false

namespace Morris.Position

/-! ## Closing mills -/

/-- Lines through a point that a side now fills and has not scored with, one after another: a line
counts unless the points scored with so far, those of the lines just counted included, cover it. -/
def scoreLines (p : Point) : List Bitboard → Bitboard → Nat × Bitboard
  | [], used => (0, used)
  | pair :: pairs, used =>
      let line := pair.insert p
      if used.covers line then scoreLines p pairs used
      else
        let (n, used) := scoreLines p pairs (used.union line)
        (n + 1, used)

/-- Mills closed by the man just put on a point by a side. Where a line scores once, the lines are
remembered. -/
def scoreMills (pos : Position) (p : Point) (c : Side) : Nat × Position :=
  if pos.rule.oneTimeMills then
    let full := (Board.partners pos.rule.hasDiagonals p).filter fun pair => (pos.men c).covers pair
    let (n, used) := scoreLines p full (pos.state.usedLines.get c)
    (n, pos.mapState fun s => { s with usedLines := s.usedLines.set c used })
  else (pos.millsAt p, pos)

/-- Removals that a move earns by closing `n` mills, of which there is at least one. -/
def removalsEarned (rule : Rule) (n : Nat) : Nat := if rule.mayRemoveMultiple then n else 1

/-- Let the side to move owe removals and make them next. -/
def oweRemovals (pos : Position) (n : Nat) : Position :=
  let owed := pos.mapState fun s => { s with owed := s.owed.set s.side n }
  owed.refreshKey.mapState fun s => { s with action := .remove }

/-! ## Placing -/

/-- Take as many of `n` earned removals as possible from the other side's hand and owe the rest. -/
def raidHand (pos : Position) (n : Nat) : Position :=
  let them := pos.state.side.other
  let taken := min n (pos.state.inHand.get them)
  let raided := pos.mapState fun s =>
    { s with
      inHand := s.inHand.set them (s.inHand.get them - taken)
      owed := s.owed.set s.side (n - taken) }
  raided.refreshKey

/-- Take the earned removals from the other side's hand. What the hand falls short of is owed on the
board; otherwise the turn is decided by the rule. -/
def takeFromHand (pos : Position) (n : Nat) : Position :=
  let rest := pos.raidHand n
  if pos.state.inHand.get pos.state.side.other < n then
    rest.mapState fun s => { s with action := .remove }
  else
    match rest.endPlacing? with
    | some ended => ended.settle
    | none =>
        if rest.rule.millAction == .takeFromHandAndPass then rest.passTurn.settle else rest.settle

/-- Put a man of the side to move from its hand on an empty point, and count it. -/
def drop (pos : Position) (p : Point) : Position :=
  let us := pos.state.side
  (pos.putMan p us).mapState fun s =>
    { s with
      inHand := s.inHand.update us (· - 1)
      onBoard := s.onBoard.update us (· + 1)
      quiet := 0
      selected := none
      lastMill := s.lastMill.set us none }

/-- What follows a placement that has closed `n` mills: the rule turns them into removals, or the
turn passes and placing may end. -/
def afterDrop (pos : Position) (n : Nat) : Position :=
  if pos.rule.millAction == .countMillsLater then pos.endPlacingOrPass.settle
  else if n = 0 then
    if pos.rule.pieceCount == 12 && decide (24 ≤ pos.totalOnBoard) then pos.resolveFullBoard
    else pos.endPlacingOrPass.settle
  else
    match pos.rule.millAction with
    | .takeFromHandAndPass | .takeFromHandAndMove => pos.takeFromHand (removalsEarned pos.rule n)
    | _ => pos.oweRemovals (removalsEarned pos.rule n)

/-- Place a man of the side to move on an empty point; returns the number of mills it closes. -/
def placeMan (pos : Position) (p : Point) : Nat × Position :=
  let (n, closed) := (pos.drop p).scoreMills p pos.state.side
  (n, closed.afterDrop n)

/-! ## Sliding -/

/-- Move a man of the side to move to an empty point. -/
def shift (pos : Position) (a b : Point) : Position :=
  ((pos.vacate a).putMan b pos.state.side).mapState fun s =>
    { s with quiet := s.quiet + 1, selected := none }

/-- Remember the slide by which the side to move closed a mill and opened another, if it did. -/
def remember (pos : Position) (slid : Option (Point × Point)) : Position :=
  pos.mapState fun s => { s with lastMill := s.lastMill.set s.side slid }

/-- What follows a slide that has closed `n` mills and opened `opened` others. -/
def afterShift (pos : Position) (a b : Point) (opened n : Nat) : Position :=
  if n = 0 then (pos.remember none).passTurn.settle
  else
    let remembered :=
      if pos.rule.restrictRepeatedMills then
        pos.remember (if 0 < opened then some (a, b) else none)
      else pos
    remembered.oweRemovals (removalsEarned pos.rule n)

/-- Slide the man of the side to move from one point to another; returns the number of mills it
closes. -/
def slideMan (pos : Position) (a b : Point) : Nat × Position :=
  let us := pos.state.side
  let opened := pos.linesWithin a (((pos.men us).erase a).insert b)
  let (n, closed) := (pos.shift a b).scoreMills b us
  (n, closed.afterShift a b opened n)

/-- Slide or fly the selected man to a point. -/
def slideSelected (pos : Position) (b : Point) : Except Refusal (Nat × Position) :=
  let us := pos.state.side
  match pos.state.selected with
  | none => .error .nothingSelected
  | some a =>
      if pos.contentAt a ≠ us.man then .error .nothingSelected
      else if pos.contentAt b ≠ .empty then .error (.occupied b)
      else if !pos.canFly us && !Board.isAdjacent pos.rule.hasDiagonals a b then
        .error (.notAdjacent a b)
      else if pos.returnsToMill a b then .error (.repeatedMill b)
      else .ok (pos.slideMan a b)

/-! ## Operations of a player -/

/-- Hold a man for a slide. -/
def pick (pos : Position) (p : Point) : Position :=
  pos.mapState fun s => { s with selected := some p, action := .place }

/-- Hold no man. -/
def release (pos : Position) : Position := pos.mapState fun s => { s with selected := none }

/-- Pick up an own man, or drop it if it is the one picked up. -/
def toggle (pos : Position) (p : Point) : Position :=
  pos.mapState fun s => { s with selected := if s.selected = some p then none else some p }

/-- Place a man from the hand of the side to move, which begins a game that has not begun. -/
def placeFromHand (pos : Position) (p : Point) : Except Refusal (Nat × Position) :=
  if pos.state.inHand.get pos.state.side = 0 then .error .nothingInHand
  else .ok (pos.start.placeMan p)

/-- Why no man can be put on a point: the game is over, the point does not exist or is in use. Under
rules that allow sliding while men are being placed, an own man may stand there. -/
def pointFault? (pos : Position) (p : Point) : Option Refusal :=
  let content := pos.contentAt p
  if pos.isOver then some .gameOver
  else if !Point.onBoard p then some (.offBoard p)
  else if content = pos.state.side.other.man then some (.occupied p)
  else if content = .marked then some (.marked p)
  else if !pos.rule.mayMoveWhilePlacing && content != .empty then some (.occupied p)
  else none

/-- Act on a point that is fit for it, as the phase and the action ask. -/
def putOn (pos : Position) (p : Point) : Except Refusal (Nat × Position) :=
  let mayMove := pos.rule.mayMoveWhilePlacing
  match pos.state.phase, pos.state.action with
  | .finished, _ => .error .gameOver
  | .ready, _ => pos.placeFromHand p
  | .placing, .place =>
      if mayMove && pos.contentAt p != .empty then .ok (0, pos.toggle p)
      else if mayMove && pos.state.selected.isSome then pos.slideSelected p
      else pos.placeFromHand p
  | .moving, .place => pos.slideSelected p
  | .moving, .select => .error .nothingSelected
  | _, _ => .error .wrongAction

/-- Put a man from the hand on a point, or slide the selected man there; returns the number of mills
closed. Under rules that allow sliding while men are being placed, pointing at an own man picks it
up or drops it. -/
def put (pos : Position) (p : Point) : Except Refusal (Nat × Position) :=
  match pos.pointFault? p with
  | some refusal => .error refusal
  | none => pos.putOn p

/-- Pick up a man of the side to move. -/
def select (pos : Position) (p : Point) : Except Refusal Position :=
  if !(pos.state.phase == .moving
      || (pos.state.phase == .placing && pos.rule.mayMoveWhilePlacing)) then .error .wrongPhase
  else if pos.state.action = .remove then .error .wrongAction
  else if !Point.onBoard p then .error (.offBoard p)
  else if pos.contentAt p ≠ pos.state.side.man then .error (.notOwnMan p)
  else .ok (pos.pick p)

/-- Pick up a man and slide it. -/
def slide (pos : Position) (a b : Point) : Except Refusal (Nat × Position) :=
  (pos.select a).bind fun picked => picked.put b

/-- The side whose men the side to move removes. -/
def removalTarget (pos : Position) : Side :=
  if pos.state.takesOwn.get pos.state.side then pos.state.side else pos.state.side.other

/-- The turn after the last owed removal: placing may end, a side that freed itself moves on, and
otherwise the turn passes. -/
def afterRemovals (pos : Position) : Position :=
  match pos.endPlacing? with
  | some ended => ended
  | none =>
      if pos.state.freesMover then
        (pos.mapState fun s => { s with freesMover := false }).keepTurn
      else pos.passTurn

/-- Take the man off a point, leaving a mark in its place while men are being placed under a rule
that bars emptied points. -/
def clearPoint (pos : Position) (p : Point) : Position :=
  if pos.rule.millAction == .markPoint && pos.state.phase == .placing then
    (pos.vacate p).putMark p
  else pos.vacate p

/-- Take a man of one side off the board and count the removal. -/
def takeMan (pos : Position) (p : Point) (target : Side) : Position :=
  let us := pos.state.side
  let counted := (pos.clearPoint p).mapState fun s =>
    let owed := s.owed.get us - 1
    { s with
      quiet := 0
      onBoard := s.onBoard.update target (· - 1)
      selected := none
      owed := s.owed.set us owed
      takesOwn := if owed = 0 then s.takesOwn.set us false else s.takesOwn }
  counted.refreshKey

/-- What follows a removal of a man of one side: that side may be beaten, more removals may be owed,
or the turn is decided, and settled unless a man is placed or removed next. -/
def afterTaking (pos : Position) (target : Side) : Position :=
  if pos.isBeaten target then pos.finish target.other.colour .fewMen
  else if pos.state.owed.get pos.state.side ≠ 0 then pos
  else
    let turned := pos.afterRemovals
    let side := turned.state.side
    if turned.state.owed.get side = 0 ∧ turned.state.inHand.get side = 0 then turned.settle
    else turned

/-- Why a man cannot be removed. Men in mills are protected unless all are in mills, the rule lifts
the protection, or the removal frees a side; a freeing removal takes only men that touch one of the
side to move, or its own. -/
def removalFault? (pos : Position) (p : Point) : Option Refusal :=
  match pos.state.phase with
  | .finished => some .gameOver
  | .ready => some .wrongPhase
  | _ =>
      let us := pos.state.side
      let own := pos.state.takesOwn.get us
      let target := pos.removalTarget
      if pos.state.action ≠ .remove then some .wrongAction
      else if pos.state.owed.get us = 0 then some .nothingToRemove
      else if !Point.onBoard p then some (.offBoard p)
      else if pos.contentAt p ≠ target.man then
        some (if own then .notOwnMan p else .notOpponentMan p)
      else if pos.isFreeingRemoval && (!own && !pos.touches p us.colour) then
        some (.notAdjacentToMover p)
      else if !pos.isFreeingRemoval && !pos.rule.mayRemoveFromMills
          && decide (0 < pos.millsAt p) && !pos.allInMills target then
        some (.protectedByMill p)
      else none

/-- Remove a man that the side to move owes. -/
def remove (pos : Position) (p : Point) : Except Refusal Position :=
  match pos.removalFault? p with
  | some refusal => .error refusal
  | none => .ok ((pos.takeMan p pos.removalTarget).afterTaking pos.removalTarget)

/-- End a game in progress against a side. -/
def endAgainst (pos : Position) (loser : Colour) (ending : Ending) : Except Refusal Position :=
  match pos.state.phase with
  | .finished => .error .gameOver
  | .ready => .error .wrongPhase
  | _ => .ok (pos.finish loser.opponent ending)

/-- A side gives up. -/
def resign (pos : Position) (loser : Colour) : Except Refusal Position :=
  pos.endAgainst loser .resigned

/-- A side has run out of time. -/
def timeOver (pos : Position) (loser : Colour) : Except Refusal Position :=
  pos.endAgainst loser .outOfTime

/-- End the game as a draw by repetition. -/
def declareRepetition (pos : Position) : Position := pos.finish .draw .drawnByRepetition

/-! ## Moves -/

/-- Count a move and remember it as the last one. -/
def log (pos : Position) (m : Move) : Position :=
  pos.mapState fun s => { s with ply := s.ply + 1, lastMove := m }

/-- Play a move of any kind. -/
def apply (pos : Position) (m : Move) : Except Refusal Position :=
  let played : Except Refusal Position :=
    match m.kind with
    | .remove => pos.remove m.target
    | .slide => (pos.slide m.origin m.target).map (·.2)
    | .place => (pos.release.put m.target).map (·.2)
  played.map fun next => next.log m

/-- Play a move and save the state before it; the last saved state comes first. -/
def makeMove (pos : Position) (saved : List State) (m : Move) :
    Except Refusal (Position × List State) :=
  (pos.apply m).map fun next => (next, pos.state :: saved)

/-- Bring the last saved state back. -/
def unmakeMove? (pos : Position) : List State → Option (Position × List State)
  | [] => none
  | s :: saved => some ({ pos with state := s }, saved)

/-- Whether the key occurred among the saved states, back to the state that a removal produced. -/
def repeatsIn (pos : Position) : List State → Bool
  | [] => false
  | s :: saved =>
      s.key == pos.state.key || (s.lastMove.kind != .remove && pos.repeatsIn saved)

end Morris.Position
