import Morris.Proofs.Reachable

/-!
# Finished games

A finished game refuses every act of a player, every move, and every record of a move, of a player
giving up or of a player running out of time, and settling it changes nothing. The one record that
it does not refuse is the claim of a draw: under a rule that knows draws by repetition the claim is
granted at any time, also when the game has been decided, and the result becomes a draw
(`performAll_finished`). So the result of a finished game is kept exactly as long as no draw is
claimed.

Operations that leave the game altogether do not count here: a blank record and the choice of a
built-in rule start over, and so do `start`, `reset` and `setRule`.
-/

set_option autoImplicit false

namespace Morris

open Morris.Text (trim)

/-! ## Texts -/

/-- The record that a text plays: blanks around it are dropped, and so is the line that an engine
wraps it in. -/
def recordOf (text : String) : List Char :=
  let cs := trim text.toList
  (engineLineRecord? cs).getD cs

/-- A text starts over if it is blank or chooses a built-in rule. -/
def StartsOver (text : String) : Prop :=
  trim text.toList = [] ∨ ∃ index pos, ruleNumber? (recordOf text) = some (index + 1) ∧
    (Rule.preset index).bind Position.ofRule = .ok pos

/-- Whether a text claims a draw. -/
def claimsDraw (text : String) : Bool := recordOf text == drawRecord.toList

/-- A claim of a draw stands for itself and is no record of another kind. -/
theorem drawRecord_only : trim drawRecord.toList = drawRecord.toList ∧
    engineLineRecord? drawRecord.toList = none ∧ drawRecord.toList ≠ [] ∧
    Move.ofText? drawRecord.toList = none ∧
    playerBetween? "Player" " give up!" drawRecord.toList = none ∧
    playerBetween? "Time over. Player" " win!" drawRecord.toList = none ∧
    ruleNumber? drawRecord.toList = none ∧ drawRecord.toList ≠ repetitionRecord.toList := by
  decide +kernel

theorem recordOf_drawRecord : recordOf drawRecord = drawRecord.toList := by
  obtain ⟨htrim, hline, _⟩ := drawRecord_only
  simp only [recordOf, htrim, hline, Option.getD_none]

theorem not_startsOver_drawRecord : ¬ StartsOver drawRecord := by
  obtain ⟨htrim, _, hfull, _, _, _, hnumber, _⟩ := drawRecord_only
  rintro (hblank | ⟨index, next, hchosen, _⟩)
  · exact hfull (htrim.symm.trans hblank)
  · rw [recordOf_drawRecord, hnumber] at hchosen
    cases hchosen

namespace Operation

/-- Operations that go on with the game: those of a player, the records that do not start over, and
the check of the rules that end a game. -/
def GoesOn : Operation → Prop
  | .put _ | .select _ | .slide _ _ | .remove _ | .apply _ | .makeMove _ _ => True
  | .resign _ | .timeOver _ | .settle => True
  | .command text => ¬ StartsOver text
  | _ => False

/-- Whether an operation is a record that claims a draw. -/
def isDrawClaim : Operation → Bool
  | .command text => claimsDraw text
  | _ => false

end Operation

namespace Position

variable {pos : Position}

/-! ## Refusals -/

section Refusals

variable (h : pos.state.phase = .finished)
include h

/-- Pointing at a point is refused once the game is over. -/
theorem put_of_finished (p : Point) : pos.put p = .error .gameOver := by
  simp [put, pointFault?, isOver, h]

theorem select_of_finished (p : Point) : pos.select p = .error .wrongPhase := by
  simp [select, h]

theorem slide_of_finished (a b : Point) : pos.slide a b = .error .wrongPhase := by
  simp [slide, select_of_finished h, Except.bind]

theorem remove_of_finished (p : Point) : pos.remove p = .error .gameOver := by
  simp [remove, removalFault?, h]

theorem endAgainst_of_finished (loser : Colour) (ending : Ending) :
    pos.endAgainst loser ending = .error .gameOver := by
  simp [endAgainst, h]

theorem settle_of_finished : pos.settle = pos := by
  simp [settle, h]

/-- No move is accepted once the game is over. -/
theorem apply_of_finished (m : Move) : ∃ refusal, pos.apply m = .error refusal := by
  simp only [apply]
  cases m.kind with
  | place =>
      have hput : pos.release.put m.target = .error .gameOver :=
        @put_of_finished pos.release h m.target
      exact ⟨.gameOver, by simp [hput, Except.map]⟩
  | slide => exact ⟨.wrongPhase, by simp [slide_of_finished h, Except.map]⟩
  | remove => exact ⟨.gameOver, by simp [remove_of_finished h, Except.map]⟩

theorem makeMove_of_finished (saved : List State) (m : Move) :
    ∃ refusal, pos.makeMove saved m = .error refusal := by
  obtain ⟨refusal, hrefused⟩ := apply_of_finished h m
  exact ⟨refusal, by simp [makeMove, hrefused, Except.map]⟩

/-! ## Records -/

/-- Of the records that do not start over a finished game grants only claims of a draw. -/
theorem commandBody_of_finished {cs : List Char}
    (hrule : ∀ index next, ruleNumber? cs = some (index + 1) →
      (Rule.preset index).bind ofRule ≠ .ok next) :
    (pos.commandBody cs).getD pos =
      if pos.rule.threefoldRepetition && cs == drawRecord.toList then pos.declareRepetition
      else pos := by
  by_cases hdraw : cs = drawRecord.toList
  · subst hdraw
    obtain ⟨_, _, _, hmove, hgive, htime, hnumber, hother⟩ := drawRecord_only
    cases hthree : pos.rule.threefoldRepetition <;>
      simp [commandBody, hmove, hgive, htime, hnumber, hother, hthree]
  · -- every other record is refused, or is the note of a repetition, which changes nothing
    simp only [beq_eq_false_iff_ne.2 hdraw, Bool.and_false, Bool.false_eq_true, if_false]
    simp only [commandBody]
    split
    · obtain ⟨refusal, hrefused⟩ := apply_of_finished h ‹Move›
      rw [hrefused]
      rfl
    · split
      · rw [resign, endAgainst_of_finished h]
        rfl
      · split
        · rw [timeOver, endAgainst_of_finished h]
          rfl
        · split
          · rfl
          · rename_i index hnumber
            cases hpreset : (Rule.preset index).bind ofRule with
            | error fault => rfl
            | ok next => exact absurd hpreset (hrule index next hnumber)
          · split_ifs <;> rfl

/-- A record that does not start over changes nothing once the game is over, except for the claim of
a draw under a rule that has it. -/
theorem command_of_finished {text : String} (hgoes : ¬ StartsOver text) :
    (pos.command text).getD pos =
      if pos.rule.threefoldRepetition && claimsDraw text then pos.declareRepetition else pos := by
  have hfull : (trim text.toList).isEmpty = false := by
    rw [List.isEmpty_eq_false_iff]
    exact fun hblank => hgoes (Or.inl hblank)
  simp only [command, hfull, Bool.false_eq_true, if_false]
  exact commandBody_of_finished h fun index next hnumber hnext =>
    hgoes (Or.inr ⟨index, next, hnumber, hnext⟩)

/-! ## Runs -/

/-- An operation that goes on with a finished game changes nothing unless it claims a draw. -/
theorem perform_of_finished {op : Operation} (hgoes : op.GoesOn) :
    pos.perform op =
      if pos.rule.threefoldRepetition && op.isDrawClaim then pos.declareRepetition else pos := by
  cases op with
  | put p => simp [perform, put_of_finished h, Operation.isDrawClaim, Except.map, Except.toOption]
  | select p => simp [perform, select_of_finished h, Operation.isDrawClaim, Except.toOption]
  | slide a b =>
      simp [perform, slide_of_finished h, Operation.isDrawClaim, Except.map, Except.toOption]
  | remove p => simp [perform, remove_of_finished h, Operation.isDrawClaim, Except.toOption]
  | apply m =>
      obtain ⟨refusal, hrefused⟩ := apply_of_finished h m
      simp [perform, hrefused, Operation.isDrawClaim, Except.toOption]
  | makeMove saved m =>
      obtain ⟨refusal, hrefused⟩ := makeMove_of_finished h saved m
      simp [perform, hrefused, Operation.isDrawClaim, Except.map, Except.toOption]
  | resign loser =>
      simp [perform, resign, endAgainst_of_finished h, Operation.isDrawClaim, Except.toOption]
  | timeOver loser =>
      simp [perform, timeOver, endAgainst_of_finished h, Operation.isDrawClaim, Except.toOption]
  | settle => simp [perform, settle_of_finished h, Operation.isDrawClaim]
  | command text => exact command_of_finished h hgoes
  -- these start over, which is not among the operations
  | start | reset | declareRepetition | setRule _ | image _ | rotate _ => exact hgoes.elim

end Refusals

/-- Declaring the draw once more changes nothing. -/
theorem declareRepetition_twice (pos : Position) :
    pos.declareRepetition.declareRepetition = pos.declareRepetition := rfl

/-- However a finished game is continued, it stays as it is, unless the rule knows draws by
repetition and a draw is claimed; then it becomes a draw by repetition. -/
theorem performAll_finished (h : pos.isOver = true) {ops : List Operation}
    (hgoes : ∀ op ∈ ops, op.GoesOn) :
    pos.performAll ops =
      if pos.rule.threefoldRepetition && ops.any Operation.isDrawClaim then pos.declareRepetition
      else pos := by
  -- a claim leaves a finished game under the same rule, where later claims change nothing more
  induction ops generalizing pos with
  | nil => simp [performAll]
  | cons op ops ih =>
      have hop := perform_of_finished (by simpa [isOver] using h) (hgoes op List.mem_cons_self)
      have hrest := fun q hq => hgoes q (List.mem_cons_of_mem op hq)
      have hstep : pos.performAll (op :: ops) = (pos.perform op).performAll ops := rfl
      rw [hstep, hop, List.any_cons]
      cases hthree : pos.rule.threefoldRepetition with
      | false => simpa [hthree] using ih h hrest
      | true =>
          cases op.isDrawClaim with
          | false => simpa [hthree] using ih h hrest
          | true =>
              have hdrawn := @ih pos.declareRepetition rfl hrest
              simpa [declareRepetition_twice] using hdrawn

/-- Nine Men's Morris after one placement, with White giving up. -/
def givenUp : Position :=
  (ofVariant (.ofRule {})).performAll [.apply (.place 8), .resign .white]

theorem givenUp_spec : givenUp.state.phase = .finished ∧ givenUp.state.winner = .black ∧
    givenUp.rule.threefoldRepetition = true := by
  decide +kernel

theorem claimsDraw_drawRecord : claimsDraw drawRecord = true := by
  rw [claimsDraw, recordOf_drawRecord, beq_self_eq_true]

/-- Black has won. A placement and Black's giving up are refused, and the claim of a draw between
them is granted. -/
theorem performAll_finished_claimed :
    givenUp.isOver = true ∧
      (∀ op ∈ [Operation.apply (.place 9), .command drawRecord, .resign .black], op.GoesOn) ∧
      givenUp.performAll [.apply (.place 9), .command drawRecord, .resign .black] =
        givenUp.declareRepetition := by
  obtain ⟨hphase, _, hthree⟩ := givenUp_spec
  have hover : givenUp.isOver = true := by simp [isOver, hphase]
  have hgoes : ∀ op ∈ [Operation.apply (.place 9), .command drawRecord, .resign .black],
      op.GoesOn := by
    simp [Operation.GoesOn, not_startsOver_drawRecord]
  refine ⟨hover, hgoes, ?_⟩
  rw [performAll_finished hover hgoes]
  simp [hthree, Operation.isDrawClaim, claimsDraw_drawRecord]

/-- Not every finished game keeps its result: a claim of a draw takes the win that Black has from
White's giving up. -/
theorem not_forall_finished_keeps_result :
    ¬ ∀ (rule : Rule) (pos : Position) (ops : List Operation), Reachable rule pos →
      pos.isOver = true → (∀ op ∈ ops, op.GoesOn) →
      (pos.performAll ops).isOver = true ∧
        (pos.performAll ops).state.winner = pos.state.winner ∧
        (pos.performAll ops).state.ending = pos.state.ending := by
  intro hall
  have hreach : Reachable {} givenUp := (Reachable.begin rfl).performAll _
  obtain ⟨hphase, hblack, hthree⟩ := givenUp_spec
  have hgoes : (Operation.command drawRecord).GoesOn := not_startsOver_drawRecord
  obtain ⟨_, hwinner, _⟩ := hall {} givenUp [.command drawRecord] hreach
    (by simp [isOver, hphase]) (by simpa using hgoes)
  have hclaimed : givenUp.performAll [.command drawRecord] = givenUp.declareRepetition := by
    rw [performAll, List.foldl_cons, List.foldl_nil, perform_of_finished hphase hgoes]
    simp [hthree, Operation.isDrawClaim, claimsDraw_drawRecord]
  rw [hclaimed, hblack] at hwinner
  cases hwinner

end Position

end Morris
