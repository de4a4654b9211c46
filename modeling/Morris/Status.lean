import Morris.Side

/-!
# Progress of a game

A game goes from ready through placing and moving to finished. In the two middle phases the side to
move is expected to select a man, to put one down, or to remove one. A finished game has an
`Ending`.
-/

set_option autoImplicit false

namespace Morris

/-- Phase of a game. -/
inductive Phase where
  | ready
  | placing
  | moving
  | finished
  deriving DecidableEq, Repr, Inhabited

/-- What the side to move does next. -/
inductive Action where
  | select
  | place
  | remove
  deriving DecidableEq, Repr, Inhabited

/-- How a game ended; `none` while it has not. -/
inductive Ending where
  | none
  | fewMen
  | noMove
  | boardFull
  | resigned
  | outOfTime
  | drawnByRepetition
  | drawnByMoveLimit
  | drawnByEndgameLimit
  | drawnByFullBoard
  | drawnByStalemate
  deriving DecidableEq, Repr, Inhabited

/-- Name of a phase in a diagram. -/
def Phase.name : Phase → String
  | ready => "Ready"
  | placing => "Placing"
  | moving => "Moving"
  | finished => "GameOver"

/-- Name of an action in a diagram. -/
def Action.name : Action → String
  | select => "Select"
  | place => "Place"
  | remove => "Remove"

/-- Endings in which nobody wins. -/
def Ending.isDraw : Ending → Bool
  | drawnByRepetition | drawnByMoveLimit | drawnByEndgameLimit | drawnByFullBoard
  | drawnByStalemate => true
  | _ => false

/-- Wording of an ending in a result line. -/
def Ending.text : Ending → String
  | none => "no reason"
  | fewMen => "insufficient pieces"
  | noMove => "no legal moves"
  | boardFull => "board is full"
  | resigned => "resigned"
  | outOfTime => "time over"
  | drawnByRepetition => "threefold repetition"
  | drawnByMoveLimit => "N-move rule"
  | drawnByEndgameLimit => "endgame N-move rule"
  | drawnByFullBoard => "board is full"
  | drawnByStalemate => "stalemate"

end Morris
