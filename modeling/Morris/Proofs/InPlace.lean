import Morris.InPlace
import Morris.Proofs.Effect

/-!
# Refused operations change nothing

Every operation in place does what the function of its name says: it leaves the position that the
function gives, and where the function refuses it gives up with the same refusal and with the
position as it was (`InPlace.Performs`, `InPlace.Answers`). A slide that is refused has picked up
its man before, and a placement has let go of one; both take that back.

So a refused attempt leaves the position, its rule and the saved states as they were, and a refused
record leaves a game with its position, records, remembered positions and keys
(`InPlace.refused_unchanged`).
-/

set_option autoImplicit false

namespace Morris

namespace InPlace

variable {σ ε α : Type}

/-! ## Programs and functions -/

/-- The program leaves what the function gives, and the position as it was where that refuses. -/
def Performs (program : Program ε α) (act : Position → Except ε (α × Position)) : Prop :=
  ∀ pos, program.run pos = match act pos with
    | .error fault => .error fault pos
    | .ok (a, next) => .ok a next

/-- The program takes what the function gives, and refuses what it refuses without a change. -/
def Answers (program : StateM σ Bool) (next? : σ → Option σ) : Prop :=
  ∀ s, program.run s = match next? s with
    | none => (false, s)
    | some next => (true, next)

/-- What is refused in place is what the function refuses, and nothing has changed then. -/
theorem Answers.unchanged {program : StateM σ Bool} {next? : σ → Option σ}
    (h : Answers program next?) {s : σ} (hrefused : (program.run s).1 = false) :
    next? s = none ∧ (program.run s).2 = s := by
  rw [h s] at hrefused ⊢
  cases hnext : next? s with
  | none => exact ⟨rfl, rfl⟩
  | some next =>
      rw [hnext] at hrefused
      cases hrefused

theorem Performs.accepts {program : Program ε α} {act : Position → Except ε (α × Position)}
    (h : Performs program act) :
    Answers (accepts program) fun pos => ((act pos).map (·.2)).toOption := by
  intro pos
  have hrun : program pos = _ := h pos
  simp only [StateT.run, InPlace.accepts, hrun]
  cases act pos <;> rfl

/-- The case of a program that returns nothing. -/
theorem Performs.accepts_unit {program : Program ε Unit} {act : Position → Except ε Position}
    (h : Performs program fun pos => (act pos).map fun next => ((), next)) :
    Answers (InPlace.accepts program) fun pos => (act pos).toOption := by
  intro pos
  simp only [h.accepts pos]
  cases act pos <;> rfl

/-- A check before a program refuses in its place. -/
theorem Performs.check {fault? : Position → Option ε} {program : Program ε α}
    {act : Position → Except ε (α × Position)} (h : Performs program act) :
    Performs (do check fault?; program) fun pos =>
      match fault? pos with
      | some fault => .error fault
      | none => act pos := by
  intro pos
  simp only [InPlace.check, EStateM.run_bind, EStateM.run_get]
  cases fault? pos with
  | some fault => rfl
  | none => exact h pos

/-- Restoring the state is enough for a program that leaves the variant alone when it gives up. -/
theorem run_restoring {program : Program ε α} {pos : Position} :
    (restoring program).run pos = match program.run pos with
      | .error fault left => .error fault { left with state := pos.state }
      | .ok a next => .ok a next := by
  simp only [restoring, EStateM.run_bind, EStateM.run_get]
  simp only [EStateM.run, tryCatch, tryCatchThe, MonadExceptOf.tryCatch, EStateM.tryCatch]
  cases program pos with
  | error fault left => rfl
  | ok a next => rfl

/-! ## Acts -/

theorem run_scoreMills (p : Point) (c : Side) (pos : Position) :
    (scoreMills p c : Program ε Nat).run pos =
      .ok (pos.scoreMills p c).1 (pos.scoreMills p c).2 :=
  EStateM.run_modifyGet _ _

/-- The program for a placement runs through to the position that the function computes. -/
theorem run_placeMan (p : Point) (pos : Position) :
    (placeMan p : Program ε Nat).run pos = .ok (pos.placeMan p).1 (pos.placeMan p).2 := by
  simp only [placeMan, EStateM.run_bind, EStateM.run_get, EStateM.run_modify, EStateM.run_pure,
    run_scoreMills]
  rfl

theorem run_slideMan (a b : Point) (pos : Position) :
    (slideMan a b : Program ε Nat).run pos = .ok (pos.slideMan a b).1 (pos.slideMan a b).2 := by
  simp only [slideMan, EStateM.run_bind, EStateM.run_get, EStateM.run_modify, EStateM.run_pure,
    run_scoreMills]
  rfl

theorem performs_slideSelected (b : Point) :
    Performs (slideSelected b) fun pos => pos.slideSelected b := by
  intro pos
  simp only [slideSelected, Position.slideSelected, EStateM.run_bind, EStateM.run_get]
  cases pos.state.selected with
  | none => rfl
  | some a =>
      -- the checks, in their order
      simp only []
      split
      · simp only [EStateM.run_bind, EStateM.run_throw]
      · split
        · simp only [EStateM.run_bind, EStateM.run_throw]
        · split
          · simp only [EStateM.run_bind, EStateM.run_throw]
          · split
            · simp only [EStateM.run_bind, EStateM.run_throw]
            · exact run_slideMan a b pos

theorem performs_placeFromHand (p : Point) :
    Performs (placeFromHand p) fun pos => pos.placeFromHand p := by
  intro pos
  simp only [placeFromHand, Position.placeFromHand, EStateM.run_bind, EStateM.run_get]
  split
  · simp only [EStateM.run_bind, EStateM.run_throw]
  · exact run_placeMan p pos.start

theorem performs_putOn (p : Point) : Performs (putOn p) fun pos => pos.putOn p := by
  intro pos
  simp only [putOn, Position.putOn, EStateM.run_bind, EStateM.run_get]
  -- by phase and action, as the function is written
  cases pos.state.phase with
  | ready => exact performs_placeFromHand p pos
  | finished => rfl
  | moving =>
      cases pos.state.action with
      | place => exact performs_slideSelected p pos
      | select => rfl
      | remove => rfl
  | placing =>
      cases pos.state.action with
      | select => rfl
      | remove => rfl
      | place =>
          simp only []
          split
          · rfl
          · split
            · exact performs_slideSelected p pos
            · exact performs_placeFromHand p pos

/-- The program for pointing at a point does in place what `put` computes. -/
theorem performs_put (p : Point) : Performs (put p) fun pos => pos.put p := by
  intro pos
  rw [put, (performs_putOn p).check pos]
  simp only [Position.put]
  cases pos.pointFault? p <;> rfl

theorem performs_select (p : Point) :
    Performs (select p) fun pos => (pos.select p).map fun next => ((), next) := by
  have hpick : Performs (modify fun pos => pos.pick p : Program Refusal Unit) fun pos =>
      .ok ((), pos.pick p) := fun _ => rfl
  intro pos
  rw [select, hpick.check pos]
  simp only [selectFault?, Position.select]
  split_ifs <;> rfl

/-- The man that a refused slide has picked up is put back. -/
theorem performs_slide (a b : Point) : Performs (slide a b) fun pos => pos.slide a b := by
  intro pos
  rw [slide, run_restoring, EStateM.run_bind, performs_select a pos]
  simp only [Position.slide]
  cases hselect : pos.select a with
  | error fault => rfl
  | ok picked =>
      have hback : { picked with state := pos.state } = pos := by
        obtain ⟨_, _, _, _, rfl⟩ := Position.select_ok_iff.1 hselect
        rfl
      simp only [Except.map, Except.bind, performs_put b picked]
      cases picked.put b with
      | error fault => simp only [hback]
      | ok r => rfl

theorem performs_takeMan (p : Point) : Performs (takeMan p : Program ε Unit) fun pos =>
    .ok ((), (pos.takeMan p pos.removalTarget).afterTaking pos.removalTarget) := by
  intro pos
  simp only [takeMan, EStateM.run_bind, EStateM.run_get, EStateM.run_modify]

/-- The program for a removal does in place what `remove` computes. -/
theorem performs_remove (p : Point) :
    Performs (remove p) fun pos => (pos.remove p).map fun next => ((), next) := by
  intro pos
  rw [remove, (performs_takeMan p).check pos]
  simp only [Position.remove]
  cases pos.removalFault? p <;> rfl

theorem performs_endAgainst (loser : Colour) (ending : Ending) :
    Performs (endAgainst loser ending) fun pos =>
      (pos.endAgainst loser ending).map fun next => ((), next) := by
  intro pos
  simp only [endAgainst, Position.endAgainst, EStateM.run_bind, EStateM.run_get]
  cases pos.state.phase <;> rfl

/-- The man that is let go before a refused placement is held again. -/
theorem performs_apply (m : Move) :
    Performs (apply m) fun pos => (pos.apply m).map fun next => ((), next) := by
  intro pos
  rw [apply, EStateM.run_bind, run_restoring]
  simp only [play, Position.apply]
  cases m.kind with
  | remove =>
      simp only [performs_remove m.target pos]
      cases pos.remove m.target <;> rfl
  | slide =>
      simp only [EStateM.run_bind, performs_slide m.origin m.target pos]
      cases pos.slide m.origin m.target <;> rfl
  | place =>
      simp only [EStateM.run_bind, EStateM.run_modify, performs_put m.target pos.release]
      cases pos.release.put m.target <;> rfl

theorem performs_setRule (rule : Rule) :
    Performs (setRule rule) fun _ => (Position.ofRule rule).map fun next => ((), next) := by
  intro pos
  simp only [setRule, Position.ofRule]
  cases hvariant : Variant.ofRule? rule with
  | error fault => rfl
  | ok variant => rfl

/-! ## Records -/

theorem answers_commandBody (cs : List Char) :
    Answers (commandBody cs) fun pos => pos.commandBody cs := by
  intro pos
  simp only [commandBody, Position.commandBody]
  -- both read the text in the same order, so the branches correspond one to one
  cases Move.ofText? cs with
  | some m => exact (performs_apply m).accepts_unit pos
  | none =>
      cases playerBetween? "Player" " give up!" cs with
      | some loser => exact (performs_endAgainst loser .resigned).accepts_unit pos
      | none =>
          cases playerBetween? "Time over. Player" " win!" cs with
          | some winner => exact (performs_endAgainst winner.opponent .outOfTime).accepts_unit pos
          | none =>
              rcases ruleNumber? cs with _ | _ | index
              · simp only [StateT.run_bind, StateT.run_get, pure_bind]
                split_ifs <;> rfl
              · rfl
              · simp only []
                cases Rule.preset index with
                | error fault => rfl
                | ok rule => exact (performs_setRule rule).accepts_unit pos

/-- The program for a record accepts it exactly if `command` does, and then leaves its result. -/
theorem answers_command (text : String) : Answers (command text) fun pos => pos.command text := by
  intro pos
  simp only [command, Position.command]
  split
  · rfl
  · exact answers_commandBody _ pos

theorem answers_commandGame (text : String) :
    Answers (commandGame text) fun g => g.command text := by
  intro g
  -- the position that a refused record leaves is the one it found, so the game is as before
  have hposition := answers_command (Text.trimString text) g.position
  simp only [StateT.run] at hposition
  simp only [commandGame, Game.command]
  split
  · rfl
  · simp only [StateT.run_bind, StateT.run_get, pure_bind, hposition]
    cases g.position.command (Text.trimString text) <;> rfl

end InPlace

/-! ## Attempts -/

namespace Desk

open InPlace (Answers)

theorem answers_onPosition {program : StateM Position Bool} {next? : Position → Option Position}
    (h : Answers program next?) :
    Answers (onPosition program) fun d => (next? d.position).map fun pos =>
      { d with position := pos } := by
  intro d
  have hrun : program d.position = _ := h d.position
  simp only [StateT.run, onPosition, hrun]
  cases next? d.position <;> rfl

/-- The program for a move on a desk accepts it exactly if `makeMove` does, and then leaves its
result. -/
theorem answers_makeMove (m : Move) : Answers (makeMove m) fun d =>
    (d.position.makeMove d.saved m).toOption.map fun r => ⟨r.1, r.2⟩ := by
  intro d
  have happly := answers_onPosition (InPlace.performs_apply m).accepts_unit d
  simp only [makeMove, Position.makeMove, StateT.run_bind, StateT.run_get, pure_bind, happly]
  cases d.position.apply m <;> rfl

end Desk

/-- An attempt carried out in place agrees with the functions. -/
theorem Attempt.answers_carryOut (a : Attempt) : InPlace.Answers a.carryOut a.outcome? := by
  intro d
  cases a with
  | put p => exact Desk.answers_onPosition (InPlace.performs_put p).accepts d
  | select p => exact Desk.answers_onPosition (InPlace.performs_select p).accepts_unit d
  | slide a b => exact Desk.answers_onPosition (InPlace.performs_slide a b).accepts d
  | remove p => exact Desk.answers_onPosition (InPlace.performs_remove p).accepts_unit d
  | apply m => exact Desk.answers_onPosition (InPlace.performs_apply m).accepts_unit d
  | makeMove m => exact Desk.answers_makeMove m d
  | resign loser =>
      exact Desk.answers_onPosition (InPlace.performs_endAgainst loser .resigned).accepts_unit d
  | timeOver loser =>
      exact Desk.answers_onPosition (InPlace.performs_endAgainst loser .outOfTime).accepts_unit d
  | setRule rule => exact Desk.answers_onPosition (InPlace.performs_setRule rule).accepts_unit d
  | command text => exact Desk.answers_onPosition (InPlace.answers_command text) d

namespace InPlace

/-- A refused operation changes nothing. Whatever the position is and whichever states are saved:
where the function of an operation gives nothing, the operation in place leaves position, rule and
saved states alone, and a refused record leaves the game alone. -/
theorem refused_unchanged :
    (∀ (a : Attempt) (d : Desk), (a.carryOut.run d).1 = false →
      a.outcome? d = none ∧ (a.carryOut.run d).2 = d) ∧
    (∀ (text : String) (g : Game), ((commandGame text).run g).1 = false →
      g.command text = none ∧ ((commandGame text).run g).2 = g) :=
  ⟨fun a _ hrefused => a.answers_carryOut.unchanged hrefused,
    fun text _ hrefused => (answers_commandGame text).unchanged hrefused⟩

/-- A slide to a point far away picks up its man before it is refused, and a record of the same
slide is refused by a game. -/
theorem refused_unchanged_slide :
    (∃ picked, (select 8).run Position.lasker = .ok () picked ∧ picked ≠ Position.lasker) ∧
      ((Attempt.makeMove (.slide 8 30)).carryOut.run ⟨Position.lasker, []⟩).2 =
        ⟨Position.lasker, []⟩ ∧
      ((commandGame "(1,1)->(3,7)").run (.ofPosition Position.lasker)).2 =
        .ofPosition Position.lasker := by
  refine ⟨⟨Position.lasker.pick 8, ?_, by decide +kernel⟩, ?_, ?_⟩
  · have hselect : (Position.lasker.select 8).toOption = some (Position.lasker.pick 8) := by
      decide +kernel
    rw [performs_select 8 Position.lasker]
    simp only [Position.toOption_eq_some_iff.1 hselect, Except.map]
  · exact (refused_unchanged.1 _ _ (by decide +kernel)).2
  · exact (refused_unchanged.2 _ _ (by decide +kernel)).2

end InPlace

end Morris
