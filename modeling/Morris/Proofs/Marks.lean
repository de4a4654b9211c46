import Morris.Proofs.Owed
import Morris.Proofs.Progress.Placing
import Morris.Proofs.Progress.Removing
import Morris.Proofs.Progress.Sliding
import Morris.Proofs.Step

/-!
# Empty hands and marks

Three things are kept by all accepted moves, whatever the rule. A side that is to slide has nothing
in hand (`Position.Emptied`). Under the rules that bar no points there is no mark
(`PlayedBy.unmarked_of_ne`). Under the rule that bars points the marks stand until both hands are
empty and nothing is owed (`Position.Barring`): the side that places last is still in the placing
phase then, so the end of placing is not missed. Where nobody slides before placing is over the
hands get empty in step, and there is no mark in the whole moving phase
(`PlayedBy.unmarked_of_moving`).
-/

set_option autoImplicit false

namespace Morris.Position

variable {pos next : Position} {c : Side} {r : Nat × Position} {admits : Move → Prop} {rule : Rule}

/-! ## A side that slides has nothing in hand -/

/-- Whoever is to move in the moving phase has no man in hand. -/
def Emptied (pos : Position) : Prop :=
  pos.state.phase = .moving → pos.state.inHand.get pos.state.side = 0

/-- Outside the moving phase nothing is claimed of the hand. -/
theorem emptied_of_phase (h : pos.state.phase ≠ .moving) : pos.Emptied :=
  fun hmoving => absurd hmoving h

/-- Nothing but the phase, the side to move and the hands matters. -/
theorem Emptied.of_same (h : pos.Emptied) (hphase : next.state.phase = pos.state.phase)
    (hside : next.state.side = pos.state.side) (hhand : next.state.inHand = pos.state.inHand) :
    next.Emptied := by
  intro hmoving
  rw [hhand, hside]
  exact h (hphase.symm.trans hmoving)

/-- A side that is given the turn slides only if its hand is empty. -/
theorem emptied_giveTurn (pos : Position) (c : Side) : (pos.giveTurn c).Emptied := by
  intro hmoving
  by_contra hhand
  have hplacing : (pos.giveTurn c).state.phase = .placing := if_neg hhand
  cases hplacing.symm.trans hmoving

theorem Emptied.turnToRemoval (h : pos.Emptied) : pos.turnToRemoval.Emptied := by
  simp only [Position.turnToRemoval]
  split
  · exact h
  · exact h

theorem emptied_finish (pos : Position) (winner : Colour) (ending : Ending) :
    (pos.finish winner ending).Emptied := nofun

/-- However a position is settled, a side that slides has an empty hand. -/
theorem Settling.emptied (h : pos.Settling next) (hemptied : pos.Emptied) : next.Emptied := by
  cases h with
  | idle _ => exact hemptied
  | finished winner ending => exact emptied_finish pos winner ending
  | passed _ => exact (emptied_giveTurn pos _).turnToRemoval
  | freed frees _ _ =>
      have howes : (pos.mapState fun s => { s with freesMover := frees }).oweFreeing.Emptied :=
        hemptied
      exact howes.turnToRemoval
  | kept _ _ => exact hemptied.turnToRemoval

/-- Settling keeps it so. -/
theorem Emptied.settle (h : pos.Emptied) : pos.settle.Emptied := (settling_settle pos).emptied h

theorem PlacingEnd.emptied (h : pos.PlacingEnd next) : next.Emptied := by
  cases h with
  | lifted _ => exact emptied_giveTurn _ _
  | counted _ => exact emptied_giveTurn _ _
  | plain _ _ => exact emptied_giveTurn _ _

theorem emptied_endPlacingOrPass (pos : Position) : pos.endPlacingOrPass.Emptied := by
  rcases endPlacingOrPass_cases pos with ⟨_, hend⟩ | hpass
  · exact hend.emptied
  · rw [hpass]
    exact emptied_giveTurn pos _

theorem emptied_resolveFullBoard (pos : Position) : pos.resolveFullBoard.Emptied := by
  simp only [resolveFullBoard]
  split
  · exact emptied_finish pos _ _
  · exact emptied_giveTurn _ _
  · exact emptied_giveTurn _ _
  · exact emptied_giveTurn _ _
  · exact emptied_finish pos _ _

/-- What follows a placement keeps it so. -/
theorem AfterDrop.emptied (h : pos.AfterDrop next) (hphase : pos.state.phase = .placing) :
    next.Emptied := by
  have hplacing : ∀ q : Position, q.state.phase = .placing → q.Emptied := by
    intro q hq
    apply emptied_of_phase
    rw [hq]
    decide
  cases h with
  | calm => exact (emptied_endPlacingOrPass pos).settle
  | full => exact emptied_resolveFullBoard pos
  -- a raid leaves men to place, or gives the turn
  | raid n =>
      have hraid := raid_takeFromHand pos n
      generalize pos.takeFromHand n = next at hraid
      cases hraid with
      | owed _ => exact hplacing _ hphase
      | ended _ hend => exact hend.emptied.settle
      | passed => exact (emptied_giveTurn _ _).settle
      | kept => exact (hplacing (pos.raidHand n) hphase).settle
  | owed _ => exact hplacing _ hphase

/-- What follows a slide keeps it so. -/
theorem AfterShift.emptied (h : pos.AfterShift next) (hemptied : pos.Emptied) : next.Emptied := by
  cases h with
  | calm slid => exact (emptied_giveTurn _ _).settle
  | owed slid _ => exact hemptied

/-- What follows a removal keeps it so. -/
theorem AfterTaking.emptied (h : pos.AfterTaking next) (hemptied : pos.Emptied) :
    next.Emptied := by
  have hturned : ∀ turned, pos.AfterRemovals turned → turned.Emptied := by
    intro turned hremovals
    cases hremovals with
    | ended _ hend => exact hend.emptied
    | kept => exact emptied_giveTurn _ _
    | passed => exact emptied_giveTurn _ _
  cases h with
  | beaten winner ending => exact emptied_finish pos winner ending
  | more _ => exact hemptied
  | turned hremovals => exact hturned _ hremovals
  | settled hremovals => exact (hturned _ hremovals).settle

/-- Every step of a sound position keeps the hand of a side that slides empty. -/
theorem Emptied.step (h : pos.Emptied) (hsound : pos.Sound) {m : Move} (hstep : pos.Step m r) :
    r.2.Emptied := by
  cases hstep with
  | down _ hdown =>
      cases hdown with
      | placed hphase hp hfree hhand =>
          have hbegun := hsound.begun (hphase.imp_right And.left)
          obtain ⟨n, closed, _, heq, hsame, _⟩ := hbegun.placeMan_spec hp hfree hhand
          rw [heq]
          exact (afterDrop_cases closed n).emptied hsame.phase
      | held s _ _ _ _ => exact h
      | @slid a _ _ hp hslide =>
          obtain ⟨n, closed, opened, _, heq, hsame, _⟩ := hsound.slideMan_spec hp hslide
          have hshifted : (pos.shift a m.target).Emptied := h
          rw [heq]
          refine (afterShift_cases closed a m.target opened n).emptied ?_
          exact hshifted.of_same hsame.phase hsame.side (by rw [hsame.layout])
  -- a removal takes no man from a hand
  | removed _ _ =>
      have hframe := takeMan_frame pos m.target pos.removalTarget
      exact (afterTaking_cases _ _).emptied (h.of_same hframe.phase hframe.side hframe.inHand)

/-- In every position of a game, a side in the moving phase has nothing in hand. -/
theorem PlayedBy.emptied (h : PlayedBy admits rule pos) : pos.Emptied := by
  induction h with
  | begin hbegin =>
      obtain ⟨v, _, rfl⟩ := map_eq_ok_iff.1 hbegin
      exact nofun
  | move hplayed _ hnext ih =>
      obtain ⟨r, hstep, rfl⟩ := hplayed.sound.exists_step hnext
      exact ih.step hplayed.sound hstep

/-! ## Rules that bar no points -/

/-- The consequences of a move mark no point. -/
theorem Aftermath.unmarked (h : pos.Aftermath next) (hunmarked : pos.Unmarked) :
    next.Unmarked := by
  intro q hq
  rcases h.content q with hsame | ⟨hmarked, _⟩
  · exact hunmarked q (hsame.symm.trans hq)
  · exact hunmarked q hmarked

theorem Unmarked.drop (h : pos.Unmarked) {p : Point} (hp : Point.onBoard p = true) :
    (pos.drop p).Unmarked := by
  intro q
  rw [contentAt_drop pos hp]
  split
  · exact Side.man_ne_marked _
  · exact h q

/-- Under a rule that bars no points, a step marks none. -/
theorem Unmarked.step (h : pos.Unmarked) (hsound : pos.Sound)
    (hmark : pos.rule.millAction ≠ .markPoint) {m : Move} (hstep : pos.Step m r) :
    r.2.Unmarked := by
  cases hstep with
  | down _ hdown =>
      cases hdown with
      | placed hphase hp hfree hhand =>
          have hbegun := hsound.begun (hphase.imp_right And.left)
          have hunmarked : pos.begun.Unmarked := h
          obtain ⟨n, closed, _, heq, hsame, hcons⟩ := hbegun.placeMan_spec hp hfree hhand
          rw [heq]
          exact ((afterDrop_cases closed n).aftermath hcons.agrees).unmarked
            (hsame.unmarked (hunmarked.drop hp))
      | held s _ _ _ _ => exact h
      | @slid a _ _ hp hslide =>
          obtain ⟨n, closed, opened, _, heq, hsame, _⟩ := hsound.slideMan_spec hp hslide
          rw [heq]
          exact (afterShift_cases closed a m.target opened n).sameMen.unmarked
            (hsame.unmarked (h.shift hsound.toConsistent hslide.man hp))
  -- a removal leaves a mark under the rule that bars points only
  | removed _ hremovable =>
      have htaken := hsound.takeMan hremovable.man
      obtain ⟨hlifts, hmarks⟩ :=
        (afterTaking_cases (pos.takeMan m.target pos.removalTarget) pos.removalTarget).lifts
          htaken.agrees
      exact (hlifts.aftermath hmarks).unmarked
        (h.takeMan hsound.toConsistent hremovable.man (Or.inl hmark))

theorem unmarked_ofVariant (v : Variant) : (ofVariant v).Unmarked := by
  intro q
  rw [show (ofVariant v).contentAt q = .empty from content_initial _ q]
  decide

/-- Nothing is marked under a rule that bars no points. -/
theorem PlayedBy.unmarked_of_ne (h : PlayedBy admits rule pos)
    (hmark : rule.millAction ≠ .markPoint) : pos.Unmarked := by
  induction h with
  | begin hbegin =>
      obtain ⟨v, _, rfl⟩ := map_eq_ok_iff.1 hbegin
      exact unmarked_ofVariant v
  | move hplayed _ hnext ih =>
      obtain ⟨r, hstep, rfl⟩ := hplayed.sound.exists_step hnext
      rw [← hplayed.rule_eq] at hmark
      exact ih.step hplayed.sound hmark hstep

/-! ## The rule that bars points -/

/-- Where the hands and the marks stand under the rule that bars points. -/
structure Barring (pos : Position) : Prop where
  /-- While men are being placed, who is not to remove has a man to place. -/
  places : pos.state.phase ≠ .moving → pos.state.action ≠ .remove →
    pos.state.inHand.get pos.state.side ≠ 0
  /-- Once the hands are empty and men are slid, no mark is left. -/
  lifted : pos.state.phase = .moving → pos.HandsEmpty → pos.Unmarked
  /-- Where nobody slides before placing is over, the hands get empty in step. -/
  even : pos.rule.mayMoveWhilePlacing = false → pos.state.phase = .moving → pos.HandsEmpty
  inStep : pos.rule.mayMoveWhilePlacing = false → pos.state.phase ≠ .moving →
    pos.InStep (if pos.state.action = .remove then pos.state.side.other else pos.state.side)

/-- A side can be given the turn. -/
structure NextUp (pos : Position) (c : Side) : Prop where
  lifted : pos.HandsEmpty → pos.Unmarked
  inStep : pos.rule.mayMoveWhilePlacing = false → pos.InStep c
  /-- A side that begins with a removal does so when no man is left to place. -/
  later : pos.state.owed.get c ≠ 0 → pos.HandsEmpty

/-- The side to move has made its move and owes nothing. -/
structure Spent (pos : Position) : Prop where
  phase : pos.state.phase = .placing ∨ pos.state.phase = .moving
  lifted : pos.state.phase = .moving → pos.HandsEmpty → pos.Unmarked
  even : pos.rule.mayMoveWhilePlacing = false → pos.state.phase = .moving → pos.HandsEmpty
  inStep : pos.rule.mayMoveWhilePlacing = false → pos.InStep pos.state.side.other
  owed : pos.state.owed.get pos.state.side = 0
  later : pos.state.owed.get pos.state.side.other ≠ 0 →
    pos.state.phase = .moving ∧ pos.HandsEmpty

/-- The game is over, or hands and marks are where they should be. -/
def OverOrBarring (pos : Position) : Prop := pos.state.phase = .finished ∨ pos.Barring

theorem Barring.over_or (h : pos.Barring) : pos.OverOrBarring := Or.inr h

/-- Nothing but the men, the hands and the turn matters. -/
theorem Barring.of_sameTurn (h : pos.Barring) (hsame : pos.SameTurn next) : next.Barring where
  places := by
    rw [hsame.phase, hsame.action, hsame.side, hsame.layout]
    exact h.places
  lifted := by
    rw [hsame.phase, HandsEmpty, hsame.layout]
    exact fun hmoving hhands => hsame.unmarked (h.lifted hmoving hhands)
  even := by
    rw [hsame.rule, hsame.phase, HandsEmpty, hsame.layout]
    exact h.even
  inStep := by
    rw [hsame.rule, hsame.phase, hsame.action, hsame.side, InStep, HandsEmpty, hsame.layout]
    exact h.inStep

/-- In the moving phase only the men, the marks and the hands count. -/
theorem Barring.of_moving (h : pos.Barring) (hphase : pos.state.phase = .moving)
    (hsame : pos.SameMen next) (hnext : next.state.phase = .moving) : next.Barring where
  places hnot := absurd hnext hnot
  lifted _ hhands := by
    rw [HandsEmpty, hsame.layout] at hhands
    exact hsame.unmarked (h.lifted hphase hhands)
  even := by
    rw [hsame.rule, HandsEmpty, hsame.layout]
    exact fun halternates _ => h.even halternates hphase
  inStep _ hnot := absurd hnext hnot

/-- Giving the turn to a side that is ready for it keeps hands and marks in order. -/
theorem NextUp.giveTurn (h : pos.NextUp c) : (pos.giveTurn c).Barring where
  places hnot _ hzero := hnot (moving_giveTurn hzero)
  lifted _ hhands := h.lifted hhands
  even halternates hmoving := by
    have hhand := emptied_giveTurn pos c hmoving
    exact (h.inStep halternates).handsEmpty hhand
  inStep halternates _ := by
    have haction : (pos.giveTurn c).state.action =
        if pos.state.owed.get c ≠ 0 then .remove
        else if pos.state.inHand.get c = 0 then .select else .place := rfl
    -- a side that begins with a removal is not the one whose placement comes next
    by_cases howes : pos.state.owed.get c ≠ 0
    · exact (h.later howes).inStep _
    · have hnot : (pos.giveTurn c).state.action ≠ .remove := by
        rw [haction, if_neg howes]
        split <;> decide
      rw [if_neg hnot]
      exact h.inStep halternates

/-- With nothing in hand and nothing marked, either side can be given the turn. -/
theorem HandsEmpty.nextUp (h : pos.HandsEmpty) (hunmarked : pos.Unmarked) (c : Side) :
    pos.NextUp c :=
  ⟨fun _ => hunmarked, fun _ => h.inStep c, fun _ => h⟩

/-- However a position is settled, the game is over or hands and marks stay in order. -/
theorem Settling.overOrBarring (h : pos.Settling next) (hbarring : pos.Barring)
    (hturned : pos.Turned) (hledger : pos.Ledger) : next.OverOrBarring := by
  cases h with
  | idle _ => exact hbarring.over_or
  | finished winner ending => exact Or.inl rfl
  | passed hstuck =>
      -- who is to slide owes nothing, so nobody does
      have hclear : pos.Clear := by
        apply hledger.clear
        apply hturned.owed_eq_zero
        rw [hstuck.action]
        decide
      have hnext : pos.NextUp pos.state.side.other :=
        ⟨hbarring.lifted hstuck.moving,
          fun halternates => (hbarring.even halternates hstuck.moving).inStep _,
          fun howes => absurd (hclear.owed_get _) howes⟩
      have hturn : pos.passTurn.turnToRemoval = pos.passTurn :=
        turnToRemoval_eq_self (turned_giveTurn pos pos.state.side.other).owes.2
      rw [hturn]
      exact hnext.giveTurn.over_or
  | freed frees hstuck hwhy =>
      have hsame := (Settling.freed frees hstuck hwhy).sameMen
      refine (hbarring.of_moving hstuck.moving hsame ?_).over_or
      have hmoving : (pos.mapState fun s => { s with freesMover := frees }).oweFreeing.state.phase =
          .moving := hstuck.moving
      rw [turnToRemoval]
      split
      · exact hmoving
      · exact hmoving
  | kept _ _ =>
      rw [turnToRemoval_eq_self hturned.owes.2]
      exact hbarring.over_or

theorem Barring.settle (h : pos.Barring) (hturned : pos.Turned) (hledger : pos.Ledger) :
    pos.settle.OverOrBarring :=
  (settling_settle pos).overOrBarring h hturned hledger

/-- The end of placing lifts all marks, so that hands and marks are in order afterwards. -/
theorem barring_endPlacing (hmark : pos.rule.millAction = .markPoint) (h : pos.Consistent)
    {ended : Position} (hended : pos.endPlacing? = some ended) :
    ended.Barring := by
  obtain ⟨hdone, hend⟩ := placingEnd_of_endPlacing hended
  have hhands : pos.HandsEmpty := hands_of_isPlacingDone hdone
  cases hend with
  | lifted _ =>
      have hhands' : pos.clearMarks.HandsEmpty := by
        rw [HandsEmpty, (clearMarks_spec h.agrees).1.inHand]
        exact hhands
      exact (hhands'.nextUp h.unmarked_clearMarks _).giveTurn
  | counted hcount => cases hmark.symm.trans hcount
  | plain hnot _ => exact absurd hmark hnot

/-- Who has placed last finds the marks lifted, or the other side has a man to place. -/
theorem Spent.nextUp (h : pos.Spent) (hmark : pos.rule.millAction = .markPoint)
    (hgoes : pos.endPlacing? = none) : pos.NextUp pos.state.side.other where
  lifted hhands := by
    rcases h.phase with hplacing | hmoving
    · -- in the placing phase placing would have ended
      have hother : pos.state.owed.get pos.state.side.other = 0 := by
        by_contra howes
        cases hplacing.symm.trans (h.later howes).1
      have howed : ∀ c, pos.state.owed.get c = 0 := by
        intro c
        rcases Side.eq_or_eq_other c pos.state.side with rfl | rfl
        · exact h.owed
        · exact hother
      have hwhite := hhands .white
      have hblack := hhands .black
      have howedWhite := howed .white
      have howedBlack := howed .black
      simp only [PerSide.get] at hwhite hblack howedWhite howedBlack
      simp [endPlacing?, isPlacingDone, hplacing, hwhite, hblack, howedWhite, howedBlack,
        hmark] at hgoes
    · exact h.lifted hmoving hhands
  inStep := h.inStep
  later howes := (h.later howes).2

/-- After a move that owes nothing, the turn passes with hands and marks in order. -/
theorem Spent.endPlacingOrPass (h : pos.Spent) (hmark : pos.rule.millAction = .markPoint)
    (hcons : pos.Consistent) : pos.endPlacingOrPass.Barring := by
  simp only [Position.endPlacingOrPass]
  cases hended : pos.endPlacing? with
  | some ended => exact barring_endPlacing hmark hcons hended
  | none => exact (h.nextUp hmark hended).giveTurn

/-- After the last removal, the turn goes on with hands and marks in order. -/
theorem Spent.afterRemovals (h : pos.Spent) (hmark : pos.rule.millAction = .markPoint)
    (hcons : pos.Consistent) (hfrees : pos.state.freesMover = true → pos.state.phase = .moving) :
    pos.afterRemovals.Barring := by
  cases hfreed : pos.state.freesMover with
  | false =>
      rw [afterRemovals_eq hfreed]
      exact h.endPlacingOrPass hmark hcons
  | true =>
      have hmoving := hfrees hfreed
      rw [afterRemovals_of_moving hmoving, hfreed, if_pos rfl]
      have hnext : (pos.mapState fun s => { s with freesMover := false }).NextUp pos.state.side :=
        ⟨h.lifted hmoving, fun halternates => (h.even halternates hmoving).inStep _,
          fun howes => absurd h.owed howes⟩
      exact hnext.giveTurn

/-! ## After a move -/

theorem Clear.ledger_endPlacingOrPass (h : pos.Clear) : pos.endPlacingOrPass.Ledger := by
  simp only [Position.endPlacingOrPass]
  cases hended : pos.endPlacing? with
  | some ended => exact h.ledger_endPlacing hended
  | none => exact (h.giveTurn _).ledger

theorem turned_endPlacingOrPass (pos : Position) : pos.endPlacingOrPass.Turned := by
  rcases endPlacingOrPass_cases pos with ⟨_, hend⟩ | hpass
  · exact hend.turned
  · rw [hpass]
    exact turned_giveTurn pos _

theorem Spent.settle_endPlacingOrPass (h : pos.Spent) (hmark : pos.rule.millAction = .markPoint)
    (hcons : pos.Consistent) (hclear : pos.Clear) :
    pos.endPlacingOrPass.settle.OverOrBarring :=
  (h.endPlacingOrPass hmark hcons).settle (turned_endPlacingOrPass pos)
    hclear.ledger_endPlacingOrPass

/-- A mill that is answered by removals leaves the hands in step for the other side. -/
theorem Spent.oweRemovals (h : pos.Spent) (n : Nat) : (pos.oweRemovals n).Barring where
  places _ haction := absurd rfl haction
  lifted := h.lifted
  even := h.even
  inStep halternates _ := h.inStep halternates

/-- A full board leaves no man to place, so whoever goes on finds hands and marks in order. -/
theorem HandsEmpty.over_or_barring_resolveFullBoard (h : pos.HandsEmpty)
    (hunmarked : pos.Unmarked) : pos.resolveFullBoard.OverOrBarring := by
  have hnext : ∀ (q : Position) (c : Side), pos.SameMen q → (q.giveTurn c).OverOrBarring := by
    intro q c hsame
    have hhands : q.HandsEmpty := by
      rw [HandsEmpty, hsame.layout]
      exact h
    exact (hhands.nextUp (hsame.unmarked hunmarked) c).giveTurn.over_or
  simp only [resolveFullBoard]
  split
  · exact Or.inl rfl
  · exact hnext _ _ ⟨rfl, rfl, rfl⟩
  · exact hnext _ _ ⟨rfl, rfl, rfl⟩
  · exact hnext _ _ ⟨rfl, rfl, rfl⟩
  · exact Or.inl rfl

/-- Whatever follows a placement, the game is over or hands and marks are in order. -/
theorem Spent.over_or_barring_afterDrop (h : pos.Spent)
    (hmark : pos.rule.millAction = .markPoint) (hcons : pos.Consistent) (hclear : pos.Clear)
    (n : Nat) : (pos.afterDrop n).OverOrBarring := by
  simp only [afterDrop, hmark]
  split
  · rename_i hcount
    cases hcount
  · split
    · split
      · rename_i hfull
        rw [Bool.and_eq_true, decide_eq_true_iff] at hfull
        exact (hcons.handsEmpty_of_full hfull.2).over_or_barring_resolveFullBoard
          (hcons.unmarked_of_full hfull.2)
      · exact h.settle_endPlacingOrPass hmark hcons hclear
    · exact (h.oweRemovals _).over_or

theorem Clear.begun (h : pos.Clear) : pos.begun.Clear := ⟨h.owed, h.takesOwn, h.frees⟩

/-- A placement keeps hands and marks in order. -/
theorem Barring.placeMan (h : pos.Barring) (hmark : pos.rule.millAction = .markPoint)
    (hcons : pos.Consistent) (hclear : pos.Clear) (hphase : pos.state.phase = .placing)
    (haction : pos.state.action ≠ .remove) {p : Point} (hp : Point.onBoard p = true)
    (hfree : pos.contentAt p = .empty) (hhand : pos.state.inHand.get pos.state.side ≠ 0) :
    (pos.placeMan p).2.OverOrBarring := by
  obtain ⟨n, closed, _, heq, hsame, hclosed⟩ := hcons.placeMan_spec hp hfree hhand
  have hclear' := (hclear.drop p).of_sameTurn hsame
  have hplacing : closed.state.phase = .placing := hsame.phase.trans hphase
  have hnot : closed.state.phase ≠ .moving := by
    rw [hplacing]
    decide
  -- while men are placed, only the step of the hands is left to show
  have hspent : closed.Spent := by
    refine ⟨Or.inl hplacing, fun hmoving => absurd hmoving hnot,
      fun _ hmoving => absurd hmoving hnot,
      fun halternates => ?_, hclear'.owed_get _, fun howes => absurd (hclear'.owed_get _) howes⟩
    rw [hsame.rule] at halternates
    have hstep := h.inStep halternates (by rw [hphase]; decide)
    rw [if_neg haction] at hstep
    rw [InStep, HandsEmpty, hsame.layout, hsame.side]
    exact hstep.drop hhand p
  rw [heq]
  exact hspent.over_or_barring_afterDrop (hsame.rule ▸ hmark) hclosed hclear' n

/-- A slide keeps hands and marks in order. -/
theorem Barring.slideMan (h : pos.Barring) (hcons : pos.Consistent) (hclear : pos.Clear)
    (hphase : pos.state.phase = .moving ∨
      (pos.state.phase = .placing ∧ pos.rule.mayMoveWhilePlacing = true))
    (haction : pos.state.action ≠ .remove) {a b : Point} (hb : Point.onBoard b = true)
    (hslide : pos.Slidable a b) : (pos.slideMan a b).2.OverOrBarring := by
  obtain ⟨n, closed, opened, _, heq, hsame, _⟩ := hcons.slideMan_spec hb hslide
  have hclear' := (hclear.shift a b).of_sameTurn hsame
  have hlifted : closed.state.phase = .moving → closed.HandsEmpty → closed.Unmarked := by
    rw [hsame.phase, HandsEmpty, hsame.layout]
    exact fun hmoving hhands =>
      hsame.unmarked ((h.lifted hmoving hhands).shift hcons hslide.man hb)
  have heven : closed.rule.mayMoveWhilePlacing = false → closed.HandsEmpty := by
    rw [hsame.rule, HandsEmpty, hsame.layout]
    intro halternates
    rcases hphase with hmoving | ⟨_, hmay⟩
    · exact h.even halternates hmoving
    · cases halternates.symm.trans hmay
  have hnext : closed.NextUp closed.state.side.other := by
    refine ⟨fun hhands => ?_, fun halternates => (heven halternates).inStep _,
      fun howes => absurd (hclear'.owed_get _) howes⟩
    rcases hphase with hmoving | ⟨hplacing, _⟩
    · exact hlifted (hsame.phase.trans hmoving) hhands
    · -- who slides while men are placed has one to place
      have hhand := h.places (by rw [hplacing]; decide) haction
      rw [HandsEmpty, hsame.layout] at hhands
      exact absurd (hhands _) hhand
  have hafter := afterShift_cases closed a b opened n
  rw [heq]
  generalize closed.afterShift a b opened n = next at hafter
  cases hafter with
  | calm slid =>
      have hsame' := sameTurn_remember closed slid
      have hnext' : (closed.remember slid).NextUp closed.state.side.other :=
        ⟨hnext.lifted, hnext.inStep, hnext.later⟩
      exact hnext'.giveTurn.settle (turned_giveTurn _ _)
        ((hclear'.of_sameTurn hsame').giveTurn _).ledger
  | @owed k slid _ =>
      have hbarring : ((closed.remember slid).oweRemovals k).Barring := by
        refine ⟨fun _ hnot => absurd rfl hnot, hlifted, fun halternates _ => heven halternates,
          fun halternates _ => ?_⟩
        have hhands : ((closed.remember slid).oweRemovals k).HandsEmpty := heven halternates
        exact hhands.inStep _
      exact hbarring.over_or

theorem Barring.takeMan (h : pos.Barring) (hcons : pos.Consistent) {p : Point} {target : Side}
    (hp : pos.contentAt p = target.man) : (pos.takeMan p target).Barring := by
  have hframe := takeMan_frame pos p target
  constructor
  case places =>
    rw [hframe.phase, hframe.action, hframe.side, hframe.inHand]
    exact h.places
  case lifted =>
    rw [hframe.phase, HandsEmpty, hframe.inHand]
    intro hmoving hhands
    -- a mark is left while men are placed, and these are slid
    refine (h.lifted hmoving hhands).takeMan hcons hp (Or.inr ?_)
    rw [hmoving]
    decide
  case even =>
    rw [hframe.rule, hframe.phase, HandsEmpty, hframe.inHand]
    exact h.even
  case inStep =>
    rw [hframe.rule, hframe.phase, hframe.action, hframe.side, InStep, HandsEmpty, hframe.inHand]
    exact h.inStep

/-- A removal keeps hands and marks in order, since it leaves a mark only while men are placed. -/
theorem Barring.removeMan (h : pos.Barring) (hmark : pos.rule.millAction = .markPoint)
    (hcons : pos.Consistent) (hledger : pos.Ledger) {p : Point} (hremovable : pos.Removable p) :
    ((pos.takeMan p pos.removalTarget).afterTaking pos.removalTarget).OverOrBarring := by
  have hframe := takeMan_frame pos p pos.removalTarget
  have htaken := h.takeMan hcons hremovable.man
  have hcons' := hcons.takeMan hremovable.man
  obtain ⟨_, hpaid⟩ := hledger.taken hframe
  have haction := hframe.action.trans hremovable.action
  have hphase : (pos.takeMan p pos.removalTarget).state.phase = .placing ∨
      (pos.takeMan p pos.removalTarget).state.phase = .moving := by
    rw [hframe.phase]
    exact hremovable.inProgress
  have hmark' : (pos.takeMan p pos.removalTarget).rule.millAction = .markPoint := by
    rw [hframe.rule]
    exact hmark
  -- from here on the removal is made, and only what it left matters
  generalize pos.takeMan p pos.removalTarget = taken at *
  simp only [afterTaking]
  split
  · exact Or.inl rfl
  · split
    · exact htaken.over_or
    · rename_i hzero
      have hpaid := hpaid (Decidable.not_not.1 hzero)
      have hspent : taken.Spent := by
        refine ⟨hphase, htaken.lifted, htaken.even, fun halternates => ?_, hpaid.owed, hpaid.later⟩
        by_cases hmoving : taken.state.phase = .moving
        · exact (htaken.even halternates hmoving).inStep _
        · have hstep := htaken.inStep halternates hmoving
          rwa [if_pos haction] at hstep
      have hbarring := hspent.afterRemovals hmark' hcons' fun hfrees => (hpaid.frees hfrees).1
      split
      · exact hbarring.settle (afterRemovals_cases taken).turned hpaid.ledger_afterRemovals
      · exact hbarring.over_or

/-! ## Games of accepted moves -/

/-- One step of a sound position keeps hands and marks in order or ends the game. -/
theorem OverOrBarring.step (h : pos.OverOrBarring) (hmark : pos.rule.millAction = .markPoint)
    (hsound : pos.Sound) (hbalanced : pos.Balanced) {m : Move} (hstep : pos.Step m r) :
    r.2.OverOrBarring := by
  have hof : pos.state.phase ≠ .finished → pos.Barring := h.resolve_left
  have hclear (hgoes : pos.state.phase ≠ .finished) (haction : pos.state.action ≠ .remove) :
      pos.Clear := (hbalanced.ledger hgoes).clear_of_action hsound hgoes haction
  cases hstep with
  | down _ hdown =>
      cases hdown with
      | placed hphase hp hfree hhand =>
          have hbegun := hsound.begun (hphase.imp_right And.left)
          obtain ⟨hplace, hgoes⟩ := hsound.asked_to_place hphase
          have haction : pos.state.action ≠ .remove := by
            rw [hplace]
            decide
          have hnot : pos.state.phase ≠ .moving := by
            rcases hphase with hready | ⟨hplacing, _⟩
            · rw [hready]
              decide
            · rw [hplacing]
              decide
          -- beginning the game changes the phase alone
          have hbarring : pos.begun.Barring :=
            ⟨fun _ => (hof hgoes).places hnot, nofun, fun _ => nofun,
              fun halternates _ => (hof hgoes).inStep halternates hnot⟩
          exact hbarring.placeMan hmark hbegun.toConsistent (hclear hgoes haction).begun rfl haction
            hp hfree hhand
      | held s hplacing _ _ _ =>
          have hbarring := hof (by rw [hplacing]; decide)
          exact Or.inr ⟨hbarring.places, hbarring.lifted, hbarring.even, hbarring.inStep⟩
      | slid hphase haction hp hslide =>
          have hgoes := goes_of_sliding hphase
          exact (hof hgoes).slideMan hsound.toConsistent (hclear hgoes haction) hphase haction hp
            hslide
  | removed _ hremovable =>
      exact (hof hremovable.goes).removeMan hmark hsound.toConsistent
        (hbalanced.ledger hremovable.goes) hremovable

/-- In every position of a game under the rule that bars points, the game is over or hands and marks
are in order. -/
theorem PlayedBy.overOrBarring (h : PlayedBy admits rule pos)
    (hmark : rule.millAction = .markPoint) : pos.OverOrBarring := by
  induction h with
  | begin hbegin =>
      obtain ⟨v, hv, rfl⟩ := map_eq_ok_iff.1 hbegin
      have hvalid := (Variant.made_of_ofRule hv).1.valid
      have hpieces := ((Rule.valid_iff v.rule).1 hvalid).1.1
      refine Or.inr ⟨fun _ _ => ?_, nofun, fun _ => nofun, fun _ _ => Or.inr rfl⟩
      show v.rule.pieceCount ≠ 0
      omega
  | move hplayed _ hnext ih =>
      obtain ⟨r, hstep, rfl⟩ := hplayed.sound.exists_step hnext
      rw [← hplayed.rule_eq] at hmark
      exact (ih.step hmark hplayed.sound hplayed.reachable.balanced hstep).imp_right
        fun hbarring => hbarring.of_sameTurn (sameTurn_log _ _)

/-- While men are slid nothing is marked, unless points are barred and one side may slide while the
other still places. -/
theorem PlayedBy.unmarked_of_moving (h : PlayedBy admits rule pos)
    (hmoving : pos.state.phase = .moving)
    (hrule : ¬ (rule.millAction = .markPoint ∧ rule.mayMoveWhilePlacing = true)) :
    pos.Unmarked := by
  by_cases hmark : rule.millAction = .markPoint
  · have hbarring := (h.overOrBarring hmark).resolve_left (by rw [hmoving]; decide)
    refine hbarring.lifted hmoving (hbarring.even ?_ hmoving)
    rw [h.rule_eq]
    exact eq_false_of_ne_true fun hmay => hrule ⟨hmark, hmay⟩
  · exact h.unmarked_of_ne hmark

end Morris.Position
