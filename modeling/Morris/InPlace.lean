import Morris.Game

/-!
# Operations in place

The operations of a player are functions here: a refusal gives no position at all. A program that
holds one position and writes to it has to see to it that a refusal leaves the position as it was,
by making every check before the first write or by taking back what it has written.

This module gives the operations as such programs. `EStateM` keeps what has been written when a
program gives up, so nothing is taken back unless the program says so (`InPlace.restoring`). A
`Desk` is a position with the states saved for taking moves back, and an `Attempt` an operation on a
desk.
-/

set_option autoImplicit false

namespace Morris

open Morris.Text (trim)

namespace InPlace

/-- A program that writes to a position and may give up. -/
abbrev Program (ε α : Type) := EStateM ε Position α

variable {ε α : Type}

/-- Give up if the position gives a reason to. -/
def check (fault? : Position → Option ε) : Program ε Unit := do
  if let some fault := fault? (← get) then throw fault

/-- Bring the state back if a program gives up. -/
def restoring (program : Program ε α) : Program ε α := do
  let saved := (← get).state
  try program
  catch fault =>
    modify fun pos => { pos with state := saved }
    throw fault

/-- Run a program and say whether it went through. -/
def accepts (program : Program ε α) : StateM Position Bool := fun pos =>
  match program pos with
  | .ok _ next => (true, next)
  | .error _ left => (false, left)

/-! ## Acts -/

/-- Count the mills that the man just put on a point closes. -/
def scoreMills (p : Point) (c : Side) : Program ε Nat :=
  modifyGet fun pos => pos.scoreMills p c

/-- Place a man of the side to move on an empty point. -/
def placeMan (p : Point) : Program ε Nat := do
  let us := (← get).state.side
  modify fun pos => pos.drop p
  let n ← scoreMills p us
  modify fun pos => pos.afterDrop n
  return n

/-- Slide the man of the side to move from one point to another. -/
def slideMan (a b : Point) : Program ε Nat := do
  let pos ← get
  let us := pos.state.side
  let opened := pos.linesWithin a (((pos.men us).erase a).insert b)
  modify fun pos => pos.shift a b
  let n ← scoreMills b us
  modify fun pos => pos.afterShift a b opened n
  return n

/-- Slide or fly the selected man to a point. -/
def slideSelected (b : Point) : Program Refusal Nat := do
  let pos ← get
  let us := pos.state.side
  match pos.state.selected with
  | none => throw .nothingSelected
  | some a =>
      if pos.contentAt a ≠ us.man then throw .nothingSelected
      if pos.contentAt b ≠ .empty then throw (.occupied b)
      if !pos.canFly us && !Board.isAdjacent pos.rule.hasDiagonals a b then
        throw (.notAdjacent a b)
      if pos.returnsToMill a b then throw (.repeatedMill b)
      slideMan a b

/-- Place a man from the hand of the side to move, which begins a game that has not begun. -/
def placeFromHand (p : Point) : Program Refusal Nat := do
  let us := (← get).state.side
  if (← get).state.inHand.get us = 0 then throw .nothingInHand
  modify fun pos => pos.start
  placeMan p

/-- Act on a point as the phase and the action ask. -/
def putOn (p : Point) : Program Refusal Nat := do
  let pos ← get
  let mayMove := pos.rule.mayMoveWhilePlacing
  match pos.state.phase, pos.state.action with
  | .finished, _ => throw .gameOver
  | .ready, _ => placeFromHand p
  | .placing, .place =>
      if mayMove && pos.contentAt p != .empty then
        modify fun pos => pos.toggle p
        return 0
      else if mayMove && pos.state.selected.isSome then slideSelected p
      else placeFromHand p
  | .moving, .place => slideSelected p
  | .moving, .select => throw .nothingSelected
  | _, _ => throw .wrongAction

/-- Put a man from the hand on a point, or slide the selected man there. -/
def put (p : Point) : Program Refusal Nat := do
  check fun pos => pos.pointFault? p
  putOn p

/-- Why no man can be picked up from a point. -/
def selectFault? (p : Point) (pos : Position) : Option Refusal :=
  if !(pos.state.phase == .moving
      || (pos.state.phase == .placing && pos.rule.mayMoveWhilePlacing)) then some .wrongPhase
  else if pos.state.action = .remove then some .wrongAction
  else if !Point.onBoard p then some (.offBoard p)
  else if pos.contentAt p ≠ pos.state.side.man then some (.notOwnMan p)
  else none

/-- Pick up a man of the side to move. -/
def select (p : Point) : Program Refusal Unit := do
  check (selectFault? p)
  modify fun pos => pos.pick p

/-- Pick up a man and slide it. The man has been picked up when the slide is refused. -/
def slide (a b : Point) : Program Refusal Nat := restoring do
  select a
  put b

/-- Take a man that the side to move owes off a point. -/
def takeMan (p : Point) : Program ε Unit := do
  let target := (← get).removalTarget
  modify fun pos => pos.takeMan p target
  modify fun pos => pos.afterTaking target

/-- Remove a man that the side to move owes. -/
def remove (p : Point) : Program Refusal Unit := do
  check fun pos => pos.removalFault? p
  takeMan p

/-- End a game in progress against a side. -/
def endAgainst (loser : Colour) (ending : Ending) : Program Refusal Unit := do
  match (← get).state.phase with
  | .finished => throw .gameOver
  | .ready => throw .wrongPhase
  | _ => modify fun pos => pos.finish loser.opponent ending

/-- Play a move of any kind. A man that was held is let go before a placement is looked at. -/
def play (m : Move) : Program Refusal Unit := do
  match m.kind with
  | .remove => remove m.target
  | .slide => let _ ← slide m.origin m.target
  | .place =>
      modify fun pos => pos.release
      let _ ← put m.target

/-- Play a move, count it and remember it. -/
def apply (m : Move) : Program Refusal Unit := do
  restoring (play m)
  modify fun pos => pos.log m

/-- Take a new rule and start over. -/
def setRule (rule : Rule) : Program Error Unit := do
  match Variant.ofRule? rule with
  | .error fault => throw fault
  | .ok variant =>
      modify fun pos => { pos with variant := variant }
      modify fun pos => pos.reset

/-! ## Records -/

/-- Play a record from which blanks and an engine line have been stripped. -/
def commandBody (cs : List Char) : StateM Position Bool := do
  match Move.ofText? cs with
  | some m => accepts (apply m)
  | none =>
      match playerBetween? "Player" " give up!" cs with
      | some loser => accepts (endAgainst loser .resigned)
      | none =>
          match playerBetween? "Time over. Player" " win!" cs with
          | some winner => accepts (endAgainst winner.opponent .outOfTime)
          | none =>
              match ruleNumber? cs with
              | some 0 => return false
              | some (index + 1) =>
                  match Rule.preset index with
                  | .error _ => return false
                  | .ok rule => accepts (setRule rule)
              | none =>
                  if !(← get).rule.threefoldRepetition then return false
                  else if cs = repetitionRecord.toList then return true
                  else if cs = drawRecord.toList then
                    modify fun pos => pos.declareRepetition
                    return true
                  else return false

/-- Play a record. A blank one starts over. -/
def command (text : String) : StateM Position Bool := do
  let cs := trim text.toList
  if cs.isEmpty then
    modify fun pos => pos.reset
    return true
  else commandBody ((engineLineRecord? cs).getD cs)

/-- Play a record in a game. The steps and keys are written once the position has taken the record,
from the position before it and the one after. -/
def commandGame (text : String) : StateM Game Bool := do
  let text := Text.trimString text
  if text.isEmpty then
    modify fun g => g.reset
    return true
  else
    let before ← get
    let (accepted, left) := command text before.position
    modify fun g => { g with position := left }
    if accepted then
      modify fun g => { g with position := before.position }.accept text g.position
      return true
    else return false

end InPlace

/-! ## Attempts -/

/-- A position and the states saved for taking moves back, the last one first. -/
structure Desk where
  position : Position
  saved : List State := []
  deriving DecidableEq, Repr, Inhabited

/-- An operation that may be refused. -/
inductive Attempt where
  | put (p : Point)
  | select (p : Point)
  | slide (a b : Point)
  | remove (p : Point)
  | apply (m : Move)
  | makeMove (m : Move)
  | resign (loser : Colour)
  | timeOver (loser : Colour)
  | setRule (rule : Rule)
  | command (text : String)

namespace Desk

/-- Run a program on the position. -/
def onPosition (program : StateM Position Bool) : StateM Desk Bool := fun d =>
  let (accepted, left) := program d.position
  (accepted, { d with position := left })

/-- Play a move and save the state before it. -/
def makeMove (m : Move) : StateM Desk Bool := do
  let before := (← get).position.state
  if ← onPosition (InPlace.accepts (InPlace.apply m)) then
    modify fun d => { d with saved := before :: d.saved }
    return true
  else return false

end Desk

namespace Attempt

/-- Carry an attempt out in place, and say whether it was accepted. -/
def carryOut : Attempt → StateM Desk Bool
  | put p => Desk.onPosition (InPlace.accepts (InPlace.put p))
  | select p => Desk.onPosition (InPlace.accepts (InPlace.select p))
  | slide a b => Desk.onPosition (InPlace.accepts (InPlace.slide a b))
  | remove p => Desk.onPosition (InPlace.accepts (InPlace.remove p))
  | apply m => Desk.onPosition (InPlace.accepts (InPlace.apply m))
  | makeMove m => Desk.makeMove m
  | resign loser => Desk.onPosition (InPlace.accepts (InPlace.endAgainst loser .resigned))
  | timeOver loser => Desk.onPosition (InPlace.accepts (InPlace.endAgainst loser .outOfTime))
  | setRule rule => Desk.onPosition (InPlace.accepts (InPlace.setRule rule))
  | command text => Desk.onPosition (InPlace.command text)

/-- The desk that the functions give for an attempt. -/
def outcome? : Attempt → Desk → Option Desk
  | put p, d => ((d.position.put p).map (·.2)).toOption.map fun pos => { d with position := pos }
  | select p, d => (d.position.select p).toOption.map fun pos => { d with position := pos }
  | slide a b, d =>
      ((d.position.slide a b).map (·.2)).toOption.map fun pos => { d with position := pos }
  | remove p, d => (d.position.remove p).toOption.map fun pos => { d with position := pos }
  | apply m, d => (d.position.apply m).toOption.map fun pos => { d with position := pos }
  | makeMove m, d => (d.position.makeMove d.saved m).toOption.map fun r => ⟨r.1, r.2⟩
  | resign loser, d => (d.position.resign loser).toOption.map fun pos => { d with position := pos }
  | timeOver loser, d =>
      (d.position.timeOver loser).toOption.map fun pos => { d with position := pos }
  | setRule rule, d => (Position.ofRule rule).toOption.map fun pos => { d with position := pos }
  | command text, d => (d.position.command text).map fun pos => { d with position := pos }

end Attempt

end Morris
