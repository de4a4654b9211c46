import Morris.Point
import Morris.Rule.Basic

/-!
# Refusals and errors

A `Refusal` says why a position does not accept a move. An `Error` is anything that an operation of
the library reports instead of a result; its wording is `Error.message`.
-/

set_option autoImplicit false

namespace Morris

/-- Why a position refuses a move. -/
inductive Refusal where
  | gameOver
  | wrongPhase
  | wrongAction
  | offBoard (p : Point)
  | occupied (p : Point)
  | marked (p : Point)
  | notOwnMan (p : Point)
  | notOpponentMan (p : Point)
  | nothingInHand
  | nothingSelected
  | nothingToRemove
  | notAdjacent (a b : Point)
  | protectedByMill (p : Point)
  | notAdjacentToMover (p : Point)
  | repeatedMill (p : Point)
  deriving DecidableEq, Repr, Inhabited

/-- Wording of a refusal. -/
def Refusal.message : Refusal → String
  | gameOver => "the game is over"
  | wrongPhase => "operation not allowed in the current phase"
  | wrongAction => "operation not allowed for the current action"
  | offBoard p => s!"square {p} is not on the board"
  | occupied p => s!"square {p} is occupied"
  | marked p => s!"square {p} is marked and cannot be used until placing ends"
  | notOwnMan p => s!"square {p} does not hold a piece of the side to move"
  | notOpponentMan p => s!"square {p} does not hold an opponent piece"
  | nothingInHand => "no piece left in hand"
  | nothingSelected => "no piece selected"
  | nothingToRemove => "no removal pending"
  | notAdjacent a b => s!"square {b} is not adjacent to {a}"
  | protectedByMill p => s!"piece on {p} is protected by a mill"
  | notAdjacentToMover p => s!"piece on {p} is not adjacent to the side to move"
  | repeatedMill p => s!"moving back to {p} would repeat the last mill"

/-- Why a search returns no move. -/
inductive SearchFailure where
  | gameOver
  | noMove
  deriving DecidableEq, Repr, Inhabited

/-- Wording of a failed search. -/
def SearchFailure.message : SearchFailure → String
  | gameOver => "the game is already over"
  | noMove => "no legal move"

/-- What an operation reports instead of a result. -/
inductive Error where
  | illegalMove (reason : Refusal)
  | invalidRule (fault : Rule.Fault)
  | noSuchPreset (index count : Nat)
  | unknownOption (name : String)
  | invalidValue (name value : String)
  | unreadableRecord (text : String)
  | noResult (failure : SearchFailure)
  deriving DecidableEq, Repr, Inhabited

/-- Wording of an error. -/
def Error.message : Error → String
  | illegalMove reason => "Illegal move: " ++ reason.message
  | invalidRule fault =>
      "Invalid rule field `" ++ fault.field ++ "`: " ++ fault.reason
  | noSuchPreset index count => s!"Rule index {index} out of range (0..{count})"
  | unknownOption name => "Unknown option: " ++ name
  | invalidValue name value => "Invalid value `" ++ value ++ "` for option " ++ name
  | unreadableRecord text => "Cannot parse record: " ++ text
  | noResult failure => "Search error: " ++ failure.message

end Morris
