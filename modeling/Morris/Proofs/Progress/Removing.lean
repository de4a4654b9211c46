import Morris.Proofs.Progress.Frame

/-!
# Removals keep play going

The one removal that a mill has earned is followed by the end of placing or by the turn of the other
side. Removals that are owed after placing are made one after another, first by one side and then by
the other (`Repaid`). Either way play can go on, unless the side that loses a man is beaten
(`Live.over_or_live_remove`).
-/

set_option autoImplicit false

namespace Morris.Position

variable {pos next : Position} {c : Side}

/-! ## Removals -/

theorem afterRemovals_eq (h : pos.state.freesMover = false) :
    pos.afterRemovals = pos.endPlacingOrPass := by
  simp only [afterRemovals, endPlacingOrPass, h]
  cases pos.endPlacing? <;> rfl

theorem afterRemovals_of_moving (h : pos.state.phase = .moving) :
    pos.afterRemovals =
      if pos.state.freesMover then (pos.mapState fun s => { s with freesMover := false }).keepTurn
      else pos.passTurn := by
  simp [afterRemovals, endPlacing?, isPlacingDone, h]

/-- A turn given after removals is settled where it has to be. -/
theorem Open.over_or_live (h : pos.Open) (hcons : pos.Consistent) (hrule : pos.rule.Lively)
    (hunbeaten : ∀ c, pos.isBeaten c = false) :
    OverOrLive (if pos.state.owed.get pos.state.side = 0 ∧ pos.state.inHand.get pos.state.side = 0
      then pos.settle else pos) := by
  split
  · exact h.settle hcons hrule
  · rename_i hnot
    refine Or.inr ⟨hunbeaten, h, fun haction => ?_⟩
    -- a side that is to slide owes nothing and has nothing in hand
    have hdue := h.due_of_action (by rw [haction]; decide)
    obtain ⟨_, hhand, _⟩ := hdue.of_moving (hdue.moving_of_select haction)
    exact absurd ⟨hdue.owed_eq_zero, hhand⟩ hnot

section Taking

variable {p : Point} {target : Side}

theorem onBoard_takeMan (h : pos.Consistent) (hp : pos.contentAt p = target.man) :
    (pos.takeMan p target).state.onBoard.get target + 1 = pos.state.onBoard.get target ∧
      (pos.takeMan p target).state.onBoard.get target.other =
        pos.state.onBoard.get target.other := by
  have hpos := h.onBoard_ne_zero hp
  rw [(takeMan_frame pos p target).onBoard, PerSide.get_update, PerSide.get_update, if_pos rfl,
    if_neg (Side.other_ne target)]
  omega

theorem totalOnBoard_takeMan (h : pos.Consistent) (hp : pos.contentAt p = target.man) :
    (pos.takeMan p target).totalOnBoard < 24 := by
  obtain ⟨htarget, hother⟩ := onBoard_takeMan h hp
  have hcensus := h.census
  simp only [totalOnBoard] at hcensus ⊢
  cases target <;> simp only [PerSide.get, Side.other] at htarget hother <;> omega

theorem contentAt_takeMan (h : pos.Consistent) (hp : pos.contentAt p = target.man) (q : Point) :
    (pos.takeMan p target).contentAt q = if q = p then pos.leftAfterTaking else pos.contentAt q :=
  contentAt_clearPoint pos (Point.lt_of_onBoard (h.onBoard_of_man hp)) q

/-- A removal marks no point, except while men are being placed under a rule that bars points. -/
theorem Unmarked.takeMan (hunmarked : pos.Unmarked) (h : pos.Consistent)
    (hp : pos.contentAt p = target.man)
    (hleft : pos.rule.millAction ≠ .markPoint ∨ pos.state.phase ≠ .placing) :
    (pos.takeMan p target).Unmarked := by
  intro q
  rw [contentAt_takeMan h hp]
  split
  · have hnot : (pos.rule.millAction == .markPoint && pos.state.phase == .placing) = false := by
      rw [Bool.and_eq_false_iff, beq_eq_false_iff_ne, beq_eq_false_iff_ne]
      exact hleft
    rw [leftAfterTaking, hnot]
    decide
  · exact hunmarked q

theorem vacancies_takeMan (h : pos.Consistent) (hp : pos.contentAt p = target.man) :
    pos.vacancies ≤ (pos.takeMan p target).vacancies := by
  apply List.countP_mono_left
  intro q _ hq
  rw [beq_iff_eq] at hq ⊢
  have hne : q ≠ p := by
    rintro rfl
    rw [hp] at hq
    exact Side.man_ne_empty _ hq
  rw [contentAt_takeMan h hp, if_neg hne, hq]

/-- The side that loses a man may be beaten, and the other one is as it was. -/
theorem unbeaten_takeMan (h : pos.Consistent) (hp : pos.contentAt p = target.man)
    (hunbeaten : ∀ c, pos.isBeaten c = false)
    (htarget : (pos.takeMan p target).isBeaten target = false) (c : Side) :
    (pos.takeMan p target).isBeaten c = false := by
  have hframe := takeMan_frame pos p target
  rcases Side.eq_or_eq_other c target with rfl | rfl
  · exact htarget
  · rw [isBeaten, (onBoard_takeMan h hp).2, hframe.inHand, hframe.rule]
    exact hunbeaten _

end Taking

/-- Once the one removal that a mill has earned is made, the men have been moved. -/
theorem Earned.moved_takeMan (h : pos.Earned) (hcons : pos.Consistent) {p : Point}
    (hp : pos.contentAt p = pos.state.side.other.man) :
    (pos.takeMan p pos.state.side.other).Moved := by
  have hframe := takeMan_frame pos p pos.state.side.other
  have howed : pos.state.owed.get pos.state.side - 1 = 0 := by
    rw [h.owed, PerSide.get_set_self]
  have hman : (pos.takeMan p pos.state.side.other).state.onBoard.get pos.state.side ≠ 0 := by
    have hother := (onBoard_takeMan hcons hp).2
    rw [Side.other_other] at hother
    rw [hother]
    exact h.men _
  have hvacancies := vacancies_takeMan hcons hp
  constructor
  case toGround =>
    rw [hframe.side]
    refine .of_man hman ?_ (fun halternates => ?_) fun hmark => ?_
    · rw [hframe.inHand]
      exact Nat.le_trans h.room hvacancies
    · rw [hframe.rule] at halternates
      rw [InStep, HandsEmpty, hframe.inHand]
      exact h.inStep halternates
    · rw [hframe.rule] at hmark
      exact (h.marks hmark).takeMan hcons hp (Or.inl hmark)
  -- the one removal owed is made
  case toClear =>
    constructor
    · rw [hframe.owed, howed, h.owed]
      cases pos.state.side <;> rfl
    · rw [hframe.takesOwn, if_pos howed, h.takesOwn]
      cases pos.state.side <;> rfl
    · exact hframe.frees.trans h.frees
  case man =>
    rw [hframe.side]
    exact hman
  case phase =>
    rw [hframe.phase]
    refine h.phase.imp_right fun hmoving => ⟨hmoving.1, hmoving.2.takeMan hcons hp (Or.inr ?_)⟩
    rw [hmoving.1]
    decide

/-- A removal that a mill has earned keeps play going. -/
theorem Earned.over_or_live_afterTaking (h : pos.Earned) (hcons : pos.Consistent)
    (hrule : pos.rule.Lively) (hunbeaten : ∀ c, pos.isBeaten c = false) {p : Point}
    (hp : pos.contentAt p = pos.state.side.other.man) :
    ((pos.takeMan p pos.state.side.other).afterTaking pos.state.side.other).OverOrLive := by
  have hmoved := h.moved_takeMan hcons hp
  have htaken := hcons.takeMan hp
  have hmen := totalOnBoard_takeMan hcons hp
  have hbeaten := unbeaten_takeMan hcons hp hunbeaten
  have htakenRule := (takeMan_frame pos p pos.state.side.other).rule
  -- of the removal only what has been collected is used
  generalize pos.takeMan p pos.state.side.other = taken at hmoved htaken hmen hbeaten htakenRule ⊢
  rw [← htakenRule] at hrule
  simp only [afterTaking]
  split
  · exact Or.inl rfl
  · rename_i hnot
    have hunbeaten' := hbeaten (eq_false_of_ne_true hnot)
    have howed : ¬ taken.state.owed.get taken.state.side ≠ 0 := by
      rw [hmoved.owed, PerSide.get_both]
      exact fun hne => hne rfl
    rw [if_neg howed, afterRemovals_eq hmoved.frees]
    have hlifts := endPlacingOrPass_lifts htaken.agrees
    have hopen := hmoved.open_endPlacingOrPass htaken hrule (Or.inl hmen)
      (htaken.men_of_handsEmpty hunbeaten')
    refine hopen.over_or_live htaken.endPlacingOrPass ?_ fun c => ?_
    · rw [hlifts.rule]
      exact hrule
    · rw [hlifts.isBeaten]
      exact hunbeaten' c

/-- The position after one of the removals that are owed after placing, before the turn is given. -/
structure Repaid (pos : Position) : Prop where
  hands : pos.HandsEmpty
  takesOwn : ∀ c, pos.state.owed.get c = 0 → pos.state.takesOwn.get c = false
  frees : pos.state.freesMover = true → pos.state.owed = .both 0
  phase : pos.state.phase = .moving
  action : pos.state.action = .remove
  unmarked : pos.Unmarked
  men : pos.totalOnBoard < 24

theorem Arrears.repaid_takeMan (h : pos.Arrears) (hcons : pos.Consistent) {p : Point}
    {target : Side} (hp : pos.contentAt p = target.man) : (pos.takeMan p target).Repaid := by
  have hframe := takeMan_frame pos p target
  constructor
  case hands =>
    rw [HandsEmpty, hframe.inHand]
    exact h.hands
  case takesOwn =>
    intro c hc
    rw [hframe.owed] at hc
    rw [hframe.takesOwn]
    rcases Side.eq_or_eq_other c pos.state.side with rfl | rfl
    · rw [PerSide.get_set_self] at hc
      rw [if_pos hc, PerSide.get_set_self]
    · rw [PerSide.get_set_of_ne _ _ (Side.other_ne _)] at hc
      split
      · rw [PerSide.get_set_of_ne _ _ (Side.other_ne _)]
        exact h.takesOwn _ hc
      · exact h.takesOwn _ hc
  case frees =>
    -- the removal that frees a side is the only one owed
    intro hfrees
    rw [hframe.frees] at hfrees
    rw [hframe.owed, (h.frees hfrees).1, PerSide.get_set_self]
    cases pos.state.side <;> rfl
  case phase => exact hframe.phase.trans h.phase
  case action => exact hframe.action.trans h.action
  case unmarked =>
    refine h.unmarked.takeMan hcons hp (Or.inr ?_)
    rw [h.phase]
    decide
  case men => exact totalOnBoard_takeMan hcons hp

/-- After a removal that is owed after placing, the same side goes on removing, or moves on if the
removal has freed it, or the other side plays or removes. -/
theorem Repaid.over_or_live_afterTaking (h : pos.Repaid) (hcons : pos.Consistent)
    (hrule : pos.rule.Lively) {target : Side}
    (hbeaten : pos.isBeaten target = false → ∀ c, pos.isBeaten c = false) :
    (pos.afterTaking target).OverOrLive := by
  simp only [afterTaking]
  split
  · exact Or.inl rfl
  rename_i hnot
  have hunbeaten := hbeaten (eq_false_of_ne_true hnot)
  have hground := h.hands.ground (hcons.men_of_handsEmpty hunbeaten h.hands) h.unmarked
  have htakes : pos.state.owed = .both 0 → pos.state.takesOwn = .both false := by
    intro howed
    apply PerSide.eq_both
    intro c
    apply h.takesOwn
    rw [howed, PerSide.get_both]
  split
  · rename_i howes
    have harrears : pos.Arrears := by
      refine ⟨h.hands, howes, h.takesOwn, fun hfrees => ?_, h.phase, h.action, h.unmarked⟩
      rw [h.frees hfrees, PerSide.get_both] at howes
      exact absurd rfl howes
    exact Or.inr (harrears.live hunbeaten)
  · rename_i hnone
    have hown : pos.state.owed.get pos.state.side = 0 := Decidable.not_not.1 hnone
    rw [afterRemovals_of_moving h.phase]
    cases hfrees : pos.state.freesMover with
    | true =>
        -- the side that has freed itself keeps the turn and owes nothing more
        rw [if_pos rfl]
        have howed := h.frees hfrees
        generalize hfreed : (pos.mapState fun s => { s with freesMover := false }) = freed
        have hsame : pos.SameMen freed := by
          subst hfreed
          exact ⟨rfl, rfl, rfl⟩
        have hkey : freed.KeyExact := by
          subst hfreed
          exact hcons.key
        have hclear : freed.Clear := by
          subst hfreed
          exact ⟨howed, htakes howed, rfl⟩
        have hdue : freed.keepTurn.Due := by
          refine due_giveTurn ((hground _).of_sameMen hsame) hclear ?_ fun _ =>
            hsame.unmarked h.unmarked
          rw [totalOnBoard, hsame.layout]
          exact h.men
        have hfreedCons := hcons.of_sameMen hsame hkey
        have hfreedRule : freed.keepTurn.rule = pos.rule := hsame.rule
        refine (Open.due hdue).over_or_live (hfreedCons.giveTurn _) (hfreedRule ▸ hrule) fun c => ?_
        exact (hsame.isBeaten c).trans (hunbeaten c)
    | false =>
        -- the other side plays, or makes the removals that it owes
        rw [if_neg Bool.false_ne_true]
        have hopen : pos.passTurn.Open := by
          by_cases hother : pos.state.owed.get pos.state.side.other = 0
          · have howed : pos.state.owed = .both 0 := by
              apply PerSide.eq_both
              intro c
              rcases Side.eq_or_eq_other c pos.state.side with rfl | rfl
              · exact hown
              · exact hother
            exact .due (due_giveTurn (hground _) ⟨howed, htakes howed, hfrees⟩ h.men
              fun _ => h.unmarked)
          · exact .arrears (arrears_giveTurn h.hands hother h.takesOwn hfrees h.unmarked)
        exact hopen.over_or_live (hcons.giveTurn _) hrule hunbeaten

/-- A removal keeps play going. -/
theorem Live.over_or_live_remove (h : pos.Live) (hcons : pos.Consistent) (hrule : pos.rule.Lively)
    {p : Point} (hremovable : pos.Removable p) :
    ((pos.takeMan p pos.removalTarget).afterTaking pos.removalTarget).OverOrLive := by
  cases h.turn with
  | due hdue => exact absurd hremovable.action hdue.action_ne_remove
  | earned hearned =>
      have htarget : pos.removalTarget = pos.state.side.other := by
        rw [removalTarget, hearned.takesOwn, PerSide.get_both]
        rfl
      have hp := hremovable.man
      rw [htarget] at hp ⊢
      exact hearned.over_or_live_afterTaking hcons hrule h.unbeaten hp
  | arrears harrears =>
      have hrepaid := harrears.repaid_takeMan hcons hremovable.man
      have htakenRule := (takeMan_frame pos p pos.removalTarget).rule
      exact hrepaid.over_or_live_afterTaking (hcons.takeMan hremovable.man) (htakenRule ▸ hrule)
        fun hbeaten => unbeaten_takeMan hcons hremovable.man h.unbeaten hbeaten

end Morris.Position
