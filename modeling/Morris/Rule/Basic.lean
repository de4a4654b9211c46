/-!
# Rules

A `Rule` describes one member of the morris family: how many men each side has, when men may fly,
whether the board has diagonal lines, what closing a mill does while men are still being placed,
and which draw rules hold. `Rule.fault?` names the first constraint that a rule breaks; a rule
without fault is valid, and only valid rules are played.
-/

set_option autoImplicit false

namespace Morris

/-- What closing a mill does while men are being placed: take a man from the board, take men from
the other side's hand and pass the turn or keep it, an option kept for its place in the order that
acts as the first, bar the emptied point until placing ends, or nothing now and removals by the
number of mills once placing ends. -/
inductive MillAction where
  | takeFromBoard
  | takeFromHandAndPass
  | takeFromHandAndMove
  | giveOwnMan
  | markPoint
  | countMillsLater
  deriving DecidableEq, Repr, Inhabited

/-- What happens when all twenty-four points fill up while men are being placed. -/
inductive FullBoardAction where
  | firstSideLoses
  | firstThenSecondRemove
  | secondThenFirstRemove
  | moverRemoves
  | draw
  deriving DecidableEq, Repr, Inhabited

/-- What happens when the side to move can slide no man. -/
inductive StalemateAction where
  | lose
  | pass
  | removeAndMove
  | removeAndPass
  | draw
  deriving DecidableEq, Repr, Inhabited

namespace MillAction

/-- The actions in the order by which settings number them. -/
def all : List MillAction :=
  [takeFromBoard, takeFromHandAndPass, takeFromHandAndMove, giveOwnMan, markPoint, countMillsLater]

/-- Name of an action in settings. -/
def name : MillAction → String
  | takeFromBoard => "remove_opponents_piece_from_board"
  | takeFromHandAndPass => "remove_opponents_piece_from_hand_then_opponents_turn"
  | takeFromHandAndMove => "remove_opponents_piece_from_hand_then_your_turn"
  | giveOwnMan => "opponent_removes_own_piece"
  | markPoint => "mark_and_delay_removing_pieces"
  | countMillsLater => "removal_based_on_mill_counts"

/-- The actions with their names. -/
def choices : List (String × MillAction) := all.map fun a => (a.name, a)

end MillAction

namespace FullBoardAction

/-- The actions in the order by which settings number them. -/
def all : List FullBoardAction :=
  [firstSideLoses, firstThenSecondRemove, secondThenFirstRemove, moverRemoves, draw]

/-- Name of an action in settings. -/
def name : FullBoardAction → String
  | firstSideLoses => "first_player_lose"
  | firstThenSecondRemove => "first_and_second_player_remove_piece"
  | secondThenFirstRemove => "second_and_first_player_remove_piece"
  | moverRemoves => "side_to_move_remove_piece"
  | draw => "agree_to_draw"

/-- The actions with their names. -/
def choices : List (String × FullBoardAction) := all.map fun a => (a.name, a)

end FullBoardAction

namespace StalemateAction

/-- The actions in the order by which settings number them. -/
def all : List StalemateAction := [lose, pass, removeAndMove, removeAndPass, draw]

/-- Name of an action in settings. -/
def name : StalemateAction → String
  | lose => "end_with_stalemate_loss"
  | pass => "change_side_to_move"
  | removeAndMove => "remove_opponents_piece_and_make_next_move"
  | removeAndPass => "remove_opponents_piece_and_change_side_to_move"
  | draw => "end_with_stalemate_draw"

/-- The actions with their names. -/
def choices : List (String × StalemateAction) := all.map fun a => (a.name, a)

/-- Actions that let the blocked side remove a man. -/
def removes : StalemateAction → Bool
  | removeAndMove | removeAndPass => true
  | _ => false

end StalemateAction

/-- One member of the morris family. The default is Nine Men's Morris. -/
structure Rule where
  name : String := "Nine Men's Morris"
  /-- Men each side starts with in hand. -/
  pieceCount : Nat := 9
  /-- A side with this many men or fewer on the board may fly. -/
  flyCount : Nat := 3
  /-- A side with fewer men than this, hand included, has lost. -/
  leastCount : Nat := 3
  hasDiagonals : Bool := false
  millAction : MillAction := .takeFromBoard
  mayMoveWhilePlacing : Bool := false
  /-- Black makes the first move after the placing phase. -/
  defenderMovesFirst : Bool := false
  /-- A move that closes several mills earns as many removals. -/
  mayRemoveMultiple : Bool := false
  /-- A man may not slide back at once into the mill that it opened by closing another. -/
  restrictRepeatedMills : Bool := false
  /-- Men in mills may be removed even when others could be. -/
  mayRemoveFromMills : Bool := false
  /-- A line earns a removal only the first time that a side fills it. -/
  oneTimeMills : Bool := false
  fullBoardAction : FullBoardAction := .firstSideLoses
  stalemateAction : StalemateAction := .lose
  mayFly : Bool := true
  /-- Slides without a placement or removal after which the game is drawn. -/
  moveLimit : Nat := 100
  /-- The same limit once a side is down to three men. -/
  endgameMoveLimit : Nat := 100
  /-- A position that occurs three times draws the game. -/
  threefoldRepetition : Bool := true
  deriving DecidableEq, Repr, Inhabited

namespace Rule

/-- A constraint that a rule breaks. -/
inductive Fault where
  | pieceCount
  | flyCount
  | leastCount
  | moveLimit
  | endgameMoveLimit
  deriving DecidableEq, Repr, Inhabited

/-- Name of the setting that a fault is about. -/
def Fault.field : Fault → String
  | pieceCount => "piece_count"
  | flyCount => "fly_piece_count"
  | leastCount => "pieces_at_least_count"
  | moveLimit => "n_move_rule"
  | endgameMoveLimit => "endgame_n_move_rule"

/-- What the setting has to satisfy. -/
def Fault.reason : Fault → String
  | pieceCount => "must be between 3 and 12"
  | flyCount => "must be at least 3 and at most piece_count"
  | leastCount => "must be at least 2 and at most piece_count"
  | moveLimit => "must be positive"
  | endgameMoveLimit => "must be positive and not exceed n_move_rule"

/-- The first constraint that the rule breaks. -/
def fault? (r : Rule) : Option Fault :=
  if r.pieceCount < 3 ∨ 12 < r.pieceCount then some .pieceCount
  else if r.flyCount < 3 ∨ r.pieceCount < r.flyCount then some .flyCount
  else if r.leastCount < 2 ∨ r.pieceCount < r.leastCount then some .leastCount
  else if r.moveLimit = 0 then some .moveLimit
  else if r.endgameMoveLimit = 0 ∨ r.moveLimit < r.endgameMoveLimit then some .endgameMoveLimit
  else none

/-- A rule that breaks no constraint. -/
def Valid (r : Rule) : Prop := r.fault? = none

instance (r : Rule) : Decidable r.Valid := inferInstanceAs (Decidable (r.fault? = none))

/-- A rule is valid when all its counts lie within their bounds. -/
theorem valid_iff (r : Rule) : r.Valid ↔
    (3 ≤ r.pieceCount ∧ r.pieceCount ≤ 12) ∧ (3 ≤ r.flyCount ∧ r.flyCount ≤ r.pieceCount) ∧
      (2 ≤ r.leastCount ∧ r.leastCount ≤ r.pieceCount) ∧ 0 < r.moveLimit ∧
      0 < r.endgameMoveLimit ∧ r.endgameMoveLimit ≤ r.moveLimit := by
  unfold Valid fault?
  split
  · simp; omega
  · split
    · simp; omega
    · split
      · simp; omega
      · split
        · simp; omega
        · split
          · simp; omega
          · simp; omega

end Rule

end Morris
