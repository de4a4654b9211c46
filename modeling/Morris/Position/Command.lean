import Morris.Move.Record
import Morris.Position.Play

/-!
# Records of a game

A game is played by records, one a line: a move, a player giving up or running out of time, the
choice of a built-in rule, a draw, or nothing, which starts over. A record may be wrapped in the
line that an engine prints for it. `Position.command` plays one record; `Position.record` is the
record of the last event, and `Position.verdict` says how a finished game ended.
-/

set_option autoImplicit false

namespace Morris

open Morris.Text (trim after? before? cutAt? natural? integer? words)

/-- Record of a player giving up. -/
def gaveUpRecord (loser : Colour) : String := s!"Player{loser.playerNumber} give up!"

/-- Record of a player winning on time. -/
def wonOnTimeRecord (winner : Colour) : String := s!"Time over. Player{winner.playerNumber} win!"

/-- Record that claims or agrees a draw. -/
def drawRecord : String := "draw"

/-- Record of a draw by repetition. -/
def repetitionRecord : String := "Threefold Repetition. Draw!"

/-- The player whose number stands between two marks that make up the rest of the text. -/
def playerBetween? (before after : String) (cs : List Char) : Option Colour :=
  ((after? before.toList cs).bind (before? after.toList)).bind fun digits =>
    (natural? UInt8.size digits).bind Colour.ofPlayerNumber?

/-- The rule number of a record that chooses a built-in rule: three words, the rule, a number of
steps and a number of seconds, each number after its letter. -/
def ruleNumber? (cs : List Char) : Option Nat :=
  match words cs with
  | [rule, steps, time] =>
      ((after? ['r'] rule).bind (natural? UInt64.size)).bind fun number =>
        ((after? ['s'] steps).bind (natural? UInt32.size)).bind fun _ =>
          ((after? ['t'] time).bind (natural? UInt32.size)).map fun _ => number
  | _ => none

/-- The record within an engine line. -/
def engineLineRecord? (cs : List Char) : Option (List Char) :=
  (after? "info score ".toList cs).bind fun rest =>
    (cutAt? " bestmove ".toList rest).bind fun (value, record) =>
      (integer? 0x80000000 (trim value)).map fun _ => trim record

namespace Position

/-- Play a record from which blanks and an engine line have been stripped; `none` refuses it. -/
def commandBody (pos : Position) (cs : List Char) : Option Position :=
  match Move.ofText? cs with
  | some m => (pos.apply m).toOption
  | none =>
      match playerBetween? "Player" " give up!" cs with
      | some loser => (pos.resign loser).toOption
      | none =>
          match playerBetween? "Time over. Player" " win!" cs with
          | some winner => (pos.timeOver winner.opponent).toOption
          | none =>
              match ruleNumber? cs with
              | some 0 => none
              | some (index + 1) => ((Rule.preset index).bind ofRule).toOption
              | none =>
                  if !pos.rule.threefoldRepetition then none
                  else if cs = repetitionRecord.toList then some pos
                  else if cs = drawRecord.toList then some pos.declareRepetition
                  else none

/-- Play a record; `none` refuses it. A blank one starts over. -/
def command (pos : Position) (text : String) : Option Position :=
  let cs := trim text.toList
  if cs.isEmpty then some pos.reset
  else pos.commandBody ((engineLineRecord? cs).getD cs)

/-- Record of the last move or of the event that ended the game; empty before the first move. -/
def record (pos : Position) : String :=
  let ofMove := if pos.state.lastMove.isProper then pos.state.lastMove.text else ""
  if !pos.isOver then ofMove
  else
    match pos.state.ending with
    | .resigned => gaveUpRecord pos.state.winner.opponent
    | .outOfTime => wonOnTimeRecord pos.state.winner
    | .drawnByRepetition => repetitionRecord
    | _ => ofMove

/-- How a finished game ended. -/
def verdict (pos : Position) : Option String :=
  if !pos.isOver then none
  else
    match pos.state.winner.side? with
    | some _ =>
        some s!"Player{pos.state.winner.playerNumber} win! ({pos.state.ending.text})"
    | none => some s!"Draw! ({pos.state.ending.text})"

end Position

end Morris
