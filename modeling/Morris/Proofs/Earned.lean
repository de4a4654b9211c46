import Morris.Proofs.Blocked
import Morris.Proofs.Hashed
import Morris.Proofs.Lines

/-!
# Removals that a mill has earned

Whether the removal to be made is one that frees a side or one that a mill has earned is not
remembered; it is told from the board whenever it matters. `Position.earned_removal` says what that
comes to for the removals owed after a placement or slide that has closed a mill, from the first to
the last of them (`Position.Paying`). They are taken for freeing ones if and only if the side that
removes is blocked, under a rule that answers a blocked side with removals, or White has filled a
board that Black has no mill on. While one side pays it does not get blocked, and after a slide
neither occurs, so that what a slide has earned is always paid by the rules for mills.
`Position.not_forall_earned_removal` is a game in which a mill of hemmed-in men is not.
-/

set_option autoImplicit false

namespace Morris

theorem Board.isAdjacent_symm {diagonals : Bool} {a b : Point} (ha : Point.onBoard a = true)
    (hb : Point.onBoard b = true) (h : isAdjacent diagonals a b = true) :
    isAdjacent diagonals b a = true := by
  have hall : ∀ diagonals : Bool, ∀ a ∈ Point.all, ∀ b ∈ Point.all,
      isAdjacent diagonals a b = true → isAdjacent diagonals b a = true := by
    decide +kernel
  exact hall diagonals a ((Point.mem_all a).2 ha) b ((Point.mem_all b).2 hb) h

namespace Position

variable {pos next start q : Position} {mover : Side} {p : Point} {r : Nat × Position}

/-! ## What a mill leaves -/

/-- What is known once a side has closed a mill. -/
structure Charged (mover : Side) (next : Position) : Prop where
  /-- Nobody removes own men. -/
  takesOwn : ∀ c, next.state.takesOwn.get c = false
  /-- While men are being placed it is the side that has closed the mill that removes. -/
  placing : next.state.phase = .placing → next.state.action = .remove → next.state.side = mover
  /-- The flag of a freeing removal is set for a blocked side only. -/
  frees : next.state.freesMover = true → next.isBlocked next.state.side = true

theorem Clear.charged_of_owed (h : pos.Clear) (hside : next.state.side = pos.state.side)
    (htakes : next.state.takesOwn = pos.state.takesOwn)
    (hfrees : next.state.freesMover = pos.state.freesMover) : Charged pos.state.side next where
  takesOwn c := by rw [htakes, h.takesOwn, PerSide.get_both]
  placing _ _ := hside
  frees htrue := by
    rw [hfrees, h.frees] at htrue
    cases htrue

theorem takesOwn_turnToRemoval (pos : Position) :
    pos.turnToRemoval.state.takesOwn = pos.state.takesOwn := by
  rw [turnToRemoval]
  split <;> rfl

theorem Settling.takesOwn (h : pos.Settling next) : next.state.takesOwn = pos.state.takesOwn := by
  cases h with
  | idle _ => rfl
  | finished winner ending => rfl
  | passed _ => exact takesOwn_turnToRemoval _
  | freed frees _ _ => exact takesOwn_turnToRemoval _
  | kept _ _ => exact takesOwn_turnToRemoval _

/-- The flag is set for a blocked side, also in a game that is over. -/
theorem Settling.blocked_of_frees (h : pos.Settling next) (hfrees : pos.state.freesMover = false)
    (htrue : next.state.freesMover = true) : next.isBlocked next.state.side = true := by
  -- a finished game was given no flag, and in any other the removal is excused
  by_cases hgoes : next.state.phase = .finished
  · cases h with
    | idle _ =>
        rw [hfrees] at htrue
        cases htrue
    | finished winner ending =>
        have hsame : pos.state.freesMover = true := htrue
        rw [hfrees] at hsame
        cases hsame
    | passed hstuck =>
        rw [frees_turnToRemoval] at htrue
        have hsame : pos.state.freesMover = true := htrue
        rw [hfrees] at hsame
        cases hsame
    | freed frees hstuck _ =>
        rw [turnToRemoval]
        split <;> exact hstuck.blocked
    | kept _ _ =>
        rw [frees_turnToRemoval, hfrees] at htrue
        cases htrue
  · exact (h.excused hfrees hgoes htrue).2

/-- While men are being placed nobody comes to remove by settling. -/
theorem Settling.action_of_clear (h : pos.Settling next) (hclear : pos.Clear)
    (hturned : pos.Turned) (hplacing : next.state.phase = .placing) :
    next.state.action ≠ .remove := by
  have howed : ∀ q : Position, q.Turned → q.state.owed.get q.state.side = 0 →
      q.turnToRemoval.state.action ≠ .remove := by
    intro q hq hzero hremove
    rw [turnToRemoval_eq_self hq.owes.2] at hremove
    exact hq.owes.1 hremove hzero
  cases h with
  | idle hidle =>
      rcases hidle with hphase | hphase <;> cases hplacing.symm.trans hphase
  | finished winner ending => cases hplacing
  | passed _ => exact howed _ (turned_giveTurn pos _) (hclear.owed_get _)
  -- a blocked side frees itself in the moving phase only
  | freed frees hstuck hwhy =>
      have hhands : (pos.mapState fun s => { s with freesMover := frees }).oweFreeing.state.phase =
          .moving := hstuck.moving
      rw [turnToRemoval] at hplacing
      split at hplacing <;> cases hplacing.symm.trans hhands
  | kept _ _ => exact howed pos hturned (hclear.owed_get _)

theorem Clear.charged_settle (h : pos.Clear) (hturned : pos.Turned) (mover : Side) :
    Charged mover pos.settle where
  takesOwn c := by rw [(settling_settle pos).takesOwn, h.takesOwn, PerSide.get_both]
  placing hplacing haction :=
    absurd haction ((settling_settle pos).action_of_clear h hturned hplacing)
  frees := (settling_settle pos).blocked_of_frees h.frees

/-- At the end of placing nobody removes own men if there is a mill. -/
theorem Clear.charged_placingEnd (h : pos.Clear) (hagrees : pos.state.Agrees)
    (hdone : pos.isPlacingDone = true) (hend : pos.PlacingEnd next) {c : Side}
    (hmill : pos.millCount c ≠ 0) (mover : Side) : Charged mover next.settle where
  takesOwn d := by
    rw [(settling_settle next).takesOwn]
    -- a side that has a mill is not made to take its own men
    cases hend with
    | lifted _ =>
        show pos.clearMarks.state.takesOwn.get d = false
        rw [h.clearMarks.takesOwn, PerSide.get_both]
    | counted _ =>
        show (PerSide.both (pos.millCount .white == 0 && pos.millCount .black == 0)).get d = false
        rw [PerSide.get_both, Bool.and_eq_false_iff, beq_eq_false_iff_ne, beq_eq_false_iff_ne]
        cases c with
        | white => exact Or.inl hmill
        | black => exact Or.inr hmill
    | plain _ _ =>
        show pos.state.takesOwn.get d = false
        rw [h.takesOwn, PerSide.get_both]
  placing hplacing := by
    have hhands : ∀ c, next.state.inHand.get c = 0 := by
      rw [(hend.lifts hagrees).inHand]
      exact hands_of_isPlacingDone hdone
    exact absurd hplacing ((settling_settle next).not_placing (hend.moving hagrees hdone) hhands)
  frees := (settling_settle next).blocked_of_frees (hend.frees.trans h.frees)

/-- Who is to place a man and owes nothing has the turn. -/
theorem Clear.turned_of_place (h : pos.Clear) (hphase : pos.state.phase = .placing)
    (haction : pos.state.action = .place) : pos.Turned where
  inProgress := Or.inl hphase
  placing _ := by
    rw [haction]
    decide
  owes := by
    rw [haction, h.owed_get]
    decide

/-- A mill closed by a placement. -/
theorem Clear.charged_takeFromHand (h : pos.Clear) (hagrees : pos.state.Agrees)
    (hphase : pos.state.phase = .placing) (haction : pos.state.action = .place)
    (hmill : pos.millCount pos.state.side ≠ 0) (n : Nat) :
    Charged pos.state.side (pos.takeFromHand n) := by
  simp only [takeFromHand]
  split
  · exact h.charged_of_owed rfl rfl rfl
  · rename_i henough
    have hclear := h.raidHand (Nat.le_of_not_lt henough)
    have hturned := hclear.turned_of_place hphase haction
    split
    · rename_i ended hended
      obtain ⟨hdone, hend⟩ := placingEnd_of_endPlacing hended
      exact hclear.charged_placingEnd (agrees_raidHand hagrees n) hdone hend hmill _
    · split
      · exact (hclear.giveTurn _).charged_settle (turned_giveTurn _ _) _
      · exact hclear.charged_settle hturned _

theorem Clear.charged_afterDrop (h : pos.Clear) (hagrees : pos.state.Agrees)
    (hphase : pos.state.phase = .placing) (haction : pos.state.action = .place)
    (hmill : pos.millCount pos.state.side ≠ 0) {n : Nat} (hn : n ≠ 0) :
    Charged pos.state.side (pos.afterDrop n) := by
  simp only [afterDrop]
  split
  · rcases endPlacingOrPass_cases pos with ⟨hdone, hend⟩ | hpass
    · exact h.charged_placingEnd hagrees hdone hend hmill _
    · rw [hpass]
      exact (h.giveTurn _).charged_settle (turned_giveTurn pos _) _
  · split
    · exact h.charged_takeFromHand hagrees hphase haction hmill _
    · exact h.charged_takeFromHand hagrees hphase haction hmill _
    · exact h.charged_of_owed rfl rfl rfl

theorem Clear.charged_afterShift (h : pos.Clear) (a b : Point) (opened : Nat) {n : Nat}
    (hn : n ≠ 0) : Charged pos.state.side (pos.afterShift a b opened n) ∧
      (pos.afterShift a b opened n).state.side = pos.state.side ∧
      (pos.afterShift a b opened n).state.phase = pos.state.phase ∧
      (pos.afterShift a b opened n).state.owed.get pos.state.side.other = 0 := by
  have howed : ∀ k, (pos.state.owed.set pos.state.side k).get pos.state.side.other = 0 := by
    intro k
    rw [PerSide.get_set_of_ne _ _ (Side.other_ne _), h.owed_get]
  simp only [afterShift, if_neg hn]
  split
  · exact ⟨h.charged_of_owed rfl rfl rfl, rfl, rfl, howed _⟩
  · exact ⟨h.charged_of_owed rfl rfl rfl, rfl, rfl, howed _⟩

/-! ## A man that closes a mill -/

/-- What is known of the position in which a man has closed a mill and a removal comes next. -/
structure Closing (pos next : Position) : Prop extends Charged pos.state.side next where
  rule : next.rule = pos.rule
  /-- The side that has closed the mill has it. -/
  mill : next.millCount pos.state.side ≠ 0
  /-- A man that has come from a point leaves its side free to move and the only one to pay. -/
  slid : next.state.inHand.get pos.state.side = pos.state.inHand.get pos.state.side →
    next.state.side = pos.state.side ∧ next.state.owed.get pos.state.side.other = 0 ∧
      next.isBlocked pos.state.side = false

theorem Aftermath.millCount (h : pos.Aftermath next) (hagrees : pos.state.Agrees) (c : Side) :
    next.millCount c = pos.millCount c := by
  have hrule : next.rule = pos.rule := congrArg Variant.rule h.variant
  rw [Position.millCount, Position.millCount, hrule, h.men_eq hagrees]

/-- A side is free to move if one of its men has an empty neighbour, or if it is small enough to fly
and there is an empty point. -/
theorem Consistent.not_isBlocked_of_empty (h : pos.Consistent) {a b : Point} {c : Side}
    (ha : pos.contentAt a = c.man) (hb : Point.onBoard b = true) (hempty : pos.contentAt b = .empty)
    (hreach : b ∈ pos.neighbours a ∨
      (pos.rule.mayFly = true ∧ pos.state.onBoard.get c ≤ pos.rule.flyCount)) :
    pos.isBlocked c = false := by
  apply eq_false_of_ne_true
  intro hblocked
  rcases hreach with hnear | ⟨hfly, hsmall⟩
  · exact h.not_empty_of_isBlocked hblocked ha hnear hempty
  · have hroom : ¬ 24 ≤ pos.totalOnBoard := fun hfull => h.not_empty_of_full hfull hb hempty
    simp [isBlocked, hroom, hfly, hsmall] at hblocked

/-- A man that has closed a mill belongs to one. -/
theorem Consistent.millCount_of_scoreMills {moved closed : Position} {n : Nat} {c : Side}
    (hclosed : closed.Consistent) (hscore : moved.scoreMills p c = (n, closed))
    (hman : moved.contentAt p = c.man) (hn : n ≠ 0) : closed.millCount c ≠ 0 := by
  have hsame := sameTurn_scoreMills moved p c
  have hsome : (moved.scoreMills p c).1 ≠ 0 := by
    rw [hscore]
    exact hn
  obtain ⟨pair, hpair, hcovers⟩ := exists_partners_of_scoreMills p hman hsome
  rw [hscore] at hsame
  have hmen : closed.men c = moved.men c := by rw [men, men, hsame.layout]
  rw [← hsame.rule] at hpair
  exact hclosed.millCount_ne_zero ((hsame.content p).trans hman) hpair (hmen ▸ hcovers)

theorem Sound.closing_placeMan (h : pos.Sound) (hclear : pos.Clear)
    (hphase : pos.state.phase = .ready ∨ (pos.state.phase = .placing ∧ pos.state.action = .place))
    (hp : Point.onBoard p = true) (hfree : pos.contentAt p = .empty)
    (hhand : pos.state.inHand.get pos.state.side ≠ 0) (hmills : (pos.begun.placeMan p).1 ≠ 0) :
    pos.Closing (pos.begun.placeMan p).2 := by
  have hbegun := h.begun (hphase.imp_right And.left)
  obtain ⟨n, closed, hscore, heq, hsame, hcons⟩ := hbegun.placeMan_spec hp hfree hhand
  have hplaced := placed_placeMan hbegun.toConsistent hp hfree hhand
  have hdropped := hclear.begun.drop p
  have hman : (pos.begun.drop p).contentAt p = pos.state.side.man :=
    contentAt_drop_self pos.begun hp
  rw [heq] at hmills hplaced ⊢
  have hmill := hcons.millCount_of_scoreMills hscore hman hmills
  have hside : closed.state.side = pos.state.side := hsame.side
  have haction : closed.state.action = .place := hsame.action.trans (h.asked_to_place hphase).1
  have hafter := (afterDrop_cases closed n).aftermath hcons.agrees
  have hcharged := (hdropped.of_sameTurn hsame).charged_afterDrop hcons.agrees hsame.phase haction
    (hside ▸ hmill) hmills
  rw [hside] at hcharged
  refine ⟨hcharged, ?_, ?_, fun hkept => ?_⟩
  · exact (congrArg Variant.rule hafter.variant).trans hsame.rule
  · rw [hafter.millCount hcons.agrees]
    exact hmill
  · -- the man has come from the hand
    have hcount : (closed.afterDrop n).state.inHand.get pos.state.side + 1 =
        pos.state.inHand.get pos.state.side := hplaced.hand
    have hsameHand : (closed.afterDrop n).state.inHand.get pos.state.side =
        pos.state.inHand.get pos.state.side := hkept
    omega

theorem Sound.closing_slideMan (h : pos.Sound) (hclear : pos.Clear) {a : Point}
    (hp : Point.onBoard p = true) (hslide : pos.Slidable a p)
    (hnext : (pos.slideMan a p).2.Consistent) (hmills : (pos.slideMan a p).1 ≠ 0) :
    pos.Closing (pos.slideMan a p).2 := by
  have ha : Point.onBoard a = true := h.onBoard_of_man hslide.man
  obtain ⟨n, closed, opened, hscore, heq, hsame, hcons⟩ := h.slideMan_spec hp hslide
  have hslid := slid_slideMan h.toConsistent hslide hp
  have hshifted := hclear.shift a p
  have hman := contentAt_shift_self pos ha hp
  rw [heq] at hmills hslid hnext ⊢
  have hmill := hcons.millCount_of_scoreMills hscore hman hmills
  have hside : closed.state.side = pos.state.side := hsame.side
  have hafter := afterShift_cases closed a p opened n
  have hmen := hafter.sameMen
  obtain ⟨hcharged, hsameSide, _, howed⟩ :=
    (hshifted.of_sameTurn hsame).charged_afterShift a p opened hmills
  rw [hside] at hcharged hsameSide howed
  have hrule : (closed.afterShift a p opened n).rule = pos.rule := hmen.rule.trans hsame.rule
  refine ⟨hcharged, hrule, ?_, fun _ => ⟨hsameSide, howed, ?_⟩⟩
  · rw [hmen.aftermath.millCount hcons.agrees]
    exact hmill
  · -- the point that the man has left is empty, and the man may go back there
    refine hnext.not_isBlocked_of_empty hslid.arrived ha hslid.left ?_
    rcases hslide.reach with hfly | hadjacent
    · right
      rw [canFly, Bool.and_eq_true, Bool.and_eq_true, decide_eq_true_iff] at hfly
      rw [hrule, hslid.onBoard]
      exact hfly.1
    · left
      have hback := Board.isAdjacent_symm ha hp hadjacent
      rw [← hrule] at hback
      exact Board.mem_neighbours hp hback

theorem Sound.closing (h : pos.Sound) (hclear : pos.Clear) (hdown : pos.SetDown p r)
    (hmills : r.1 ≠ 0) : pos.Closing r.2 := by
  cases hdown with
  | placed hphase hp hfree hhand => exact h.closing_placeMan hclear hphase hp hfree hhand hmills
  | held s _ _ _ _ => exact absurd rfl hmills
  | slid hphase haction hp hslide =>
      have hnext := (h.setDown (.slid hphase haction hp hslide)).toConsistent
      exact h.closing_slideMan hclear hp hslide hnext hmills

/-! ## Paying -/

/-- What a removal of one of the other side's men does while more removals are owed. -/
inductive Payment (pos : Position) (p : Point) : Position → Prop
  /-- The other side is beaten. -/
  | beaten (winner : Colour) (ending : Ending) :
      Payment pos p ((pos.takeMan p pos.state.side.other).finish winner ending)
  /-- The same side goes on removing. -/
  | more : Payment pos p (pos.takeMan p pos.state.side.other)
  /-- The other side removes next. -/
  | turned : pos.state.phase = .moving → pos.HandsEmpty → pos.state.owed.get pos.state.side = 1 →
      Payment pos p (pos.takeMan p pos.state.side.other).passTurn

/-- While removals are owed only removals are accepted. -/
theorem Sound.removable_of_owed (h : pos.Sound) (hbalanced : pos.Balanced)
    (howed : 1 < pos.state.owed.white + pos.state.owed.black) {m : Move}
    (hnext : pos.apply m = .ok next) : pos.Ledger ∧ ∃ p, pos.Removable p ∧
      next = ((pos.takeMan p pos.removalTarget).afterTaking pos.removalTarget).log m := by
  have hgoes : pos.state.phase ≠ .finished := by
    intro hover
    obtain ⟨refusal, hrefused⟩ := apply_of_finished hover m
    rw [hrefused] at hnext
    cases hnext
  have hledger := hbalanced.ledger hgoes
  -- a side that owes nothing is the last to owe, so the sum would be zero
  have hremove : pos.state.action = .remove := by
    rw [h.stage.removes_iff hgoes]
    intro hzero
    have hown := (hledger.clear hzero).owed
    rw [hown] at howed
    simp [PerSide.both] at howed
  obtain ⟨r, hstep, rfl⟩ := h.exists_step hnext
  cases hstep with
  | down _ hdown => exact absurd hremove (h.idle_of_setDown hdown).1
  | removed _ hremovable => exact ⟨hledger, m.target, hremovable, rfl⟩

theorem afterTaking_of_owes {target : Side} (hgoes : pos.isBeaten target = false)
    (howes : pos.state.owed.get pos.state.side ≠ 0) : pos.afterTaking target = pos := by
  rw [afterTaking, if_neg (by rw [hgoes]; decide), if_pos howes]

/-- A side that has made its last removal hands the turn on to one that has removals to make. -/
theorem Ledger.afterTaking_eq_passTurn (h : pos.Ledger) {target : Side}
    (hrest : pos.state.owed.get pos.state.side.other ≠ 0)
    (hgoes : (pos.takeMan p target).isBeaten target = false)
    (hpaid : (pos.takeMan p target).state.owed.get pos.state.side = 0) :
    (pos.takeMan p target).afterTaking target = (pos.takeMan p target).passTurn := by
  have hframe := takeMan_frame pos p target
  obtain ⟨hmoving, _⟩ := h.later hrest
  have hfrees : (pos.takeMan p target).state.freesMover = false := by
    apply eq_false_of_ne_true
    rw [hframe.frees]
    exact fun htrue => hrest (h.frees htrue).2.2
  -- a removal that frees the mover is the only one owed, so this one is none
  have hturn : (pos.takeMan p target).afterRemovals = (pos.takeMan p target).passTurn := by
    rw [afterRemovals_of_moving (hframe.phase.trans hmoving), hfrees]
    rfl
  have howes : (pos.takeMan p target).passTurn.state.owed.get
      (pos.takeMan p target).passTurn.state.side ≠ 0 := by
    show (pos.takeMan p target).state.owed.get (pos.takeMan p target).state.side.other ≠ 0
    rw [hframe.side, hframe.owed, PerSide.get_set_of_ne _ _ (Side.other_ne _)]
    exact hrest
  have hbeaten : ¬ (pos.takeMan p target).isBeaten target = true := by
    rw [hgoes]
    exact Bool.false_ne_true
  -- the two tests of `afterTaking` that settle or go on are ruled out
  simp only [afterTaking]
  rw [if_neg hbeaten, hframe.side, if_neg fun hmore => hmore hpaid, hturn,
    if_neg fun hnone => howes hnone.1]

theorem Ledger.payment (h : pos.Ledger) (htakes : ∀ c, pos.state.takesOwn.get c = false)
    (howed : 1 < pos.state.owed.white + pos.state.owed.black) (hremovable : pos.Removable p) :
    pos.contentAt p = pos.state.side.other.man ∧
      pos.Payment p ((pos.takeMan p pos.removalTarget).afterTaking pos.removalTarget) := by
  have htarget : pos.removalTarget = pos.state.side.other := by
    rw [removalTarget, htakes]
    rfl
  have hman := hremovable.man
  rw [htarget] at hman ⊢
  refine ⟨hman, ?_⟩
  have hframe := takeMan_frame pos p pos.state.side.other
  have hown : (pos.takeMan p pos.state.side.other).state.owed.get pos.state.side =
      pos.state.owed.get pos.state.side - 1 := by
    rw [hframe.owed, PerSide.get_set_self]
  cases hbeaten : (pos.takeMan p pos.state.side.other).isBeaten pos.state.side.other with
  | true =>
      rw [afterTaking, if_pos hbeaten]
      exact .beaten _ _
  | false =>
      by_cases hlast : (pos.takeMan p pos.state.side.other).state.owed.get pos.state.side = 0
      · -- the side to move has paid, and it is the other side that owes the rest
        have hone : pos.state.owed.get pos.state.side = 1 := by
          have howes := hremovable.owes
          omega
        have hrest : pos.state.owed.get pos.state.side.other ≠ 0 := by
          revert howed hone
          cases pos.state.side <;> simp only [PerSide.get, Side.other] <;> omega
        obtain ⟨hmoving, hhands⟩ := h.later hrest
        rw [h.afterTaking_eq_passTurn hrest hbeaten hlast]
        exact .turned hmoving hhands hone
      · rw [afterTaking_of_owes hbeaten (by rw [hframe.side]; exact hlast)]
        exact .more

/-- A removal of the other side's men leaves those of the side to move where they are. -/
theorem men_takeMan (h : pos.Consistent) {c : Side} (hp : pos.contentAt p = c.other.man) :
    (pos.takeMan p c.other).men c = pos.men c := by
  apply Bitboard.ext_contains
  intro q
  rw [Bool.eq_iff_iff, men, men, (h.takeMan hp).agrees.men, h.agrees.men]
  show (pos.takeMan p c.other).contentAt q = c.man ↔ pos.contentAt q = c.man
  rw [contentAt_takeMan h hp]
  -- on the point itself neither a man of the side was nor one is left
  split
  · rename_i hq
    have hleft : pos.leftAfterTaking ≠ c.man := by
      rw [leftAfterTaking]
      split
      · exact (Side.man_ne_marked c).symm
      · exact (Side.man_ne_empty c).symm
    have hnot : pos.contentAt q ≠ c.man := by
      rw [hq, hp]
      exact fun hman => Side.other_ne c (Side.man_inj.1 hman)
    exact ⟨fun hman => absurd hman hleft, fun hman => absurd hman hnot⟩
  · exact Iff.rfl

theorem millCount_takeMan (h : pos.Consistent) {c : Side} (hp : pos.contentAt p = c.other.man) :
    (pos.takeMan p c.other).millCount c = pos.millCount c := by
  rw [millCount, millCount, men_takeMan h hp, (takeMan_frame pos p c.other).rule]

/-- A side does not get blocked when a man of the other side is removed. -/
theorem Consistent.isBlocked_of_takeMan (h : pos.Consistent) {c : Side}
    (hp : pos.contentAt p = c.other.man)
    (hblocked : (pos.takeMan p c.other).isBlocked c = true) : pos.isBlocked c = true := by
  by_contra hfree
  have htaken := h.takeMan hp
  have hframe := takeMan_frame pos p c.other
  obtain ⟨_, hcount⟩ := onBoard_takeMan h hp
  rw [Side.other_other] at hcount
  -- what was free before flew, or had a neighbour to go to; either is still there
  obtain ⟨_, ⟨hfly, hsmall⟩ | ⟨a, b, ha, hnear, _, hempty⟩⟩ :=
    h.free_of_not_isBlocked (eq_false_of_ne_true hfree)
  · have hroom := totalOnBoard_takeMan h hp
    rw [← hframe.rule] at hfly hsmall
    rw [← hcount] at hsmall
    simp [isBlocked, Nat.not_le.2 hroom, hfly, hsmall] at hblocked
  · have hne : b ≠ p := by
      rintro rfl
      rw [hp] at hempty
      exact Side.man_ne_empty _ hempty
    have ha' : (pos.takeMan p c.other).contentAt a = c.man := by
      have hin := (h.agrees.men c a).2 ha
      rw [← men, ← men_takeMan h hp] at hin
      exact (htaken.agrees.men c a).1 hin
    have hnear' : b ∈ (pos.takeMan p c.other).neighbours a := by
      rw [neighbours, hframe.rule]
      exact hnear
    apply htaken.not_empty_of_isBlocked hblocked ha' hnear'
    rw [contentAt_takeMan h hp, if_neg hne, hempty]

/-- Positions in which removals owed after a mill are still being made, by one side and then perhaps
by the other. -/
inductive Paying (start : Position) : Position → Prop
  | owing : Paying start start
  | pay {q next : Position} {m : Move} : Paying start q →
      1 < q.state.owed.white + q.state.owed.black → q.apply m = .ok next → Paying start next

/-- What is known while removals are being made. -/
structure Pending (start q : Position) : Prop where
  rule : q.rule = start.rule
  takesOwn : ∀ c, q.state.takesOwn.get c = false
  frees : q.state.freesMover = true → q.isBlocked q.state.side = true
  mill : q.state.phase = .placing → q.millCount q.state.side ≠ 0
  /-- The side that pays first does not get blocked, and the other one owes what it owed. -/
  first : q.state.side = start.state.side →
    (q.isBlocked start.state.side = true → start.isBlocked start.state.side = true) ∧
      q.state.owed.get start.state.side.other = start.state.owed.get start.state.side.other
  /-- Once the other side pays, the first one has paid. -/
  second : q.state.side ≠ start.state.side →
    start.state.owed.get start.state.side.other ≠ 0 ∧ q.state.owed.get start.state.side = 0

theorem Pending.of_sameTurn (h : Pending start q) (hsame : q.SameTurn next) :
    Pending start next where
  rule := hsame.rule.trans h.rule
  takesOwn := by
    rw [hsame.takesOwn]
    exact h.takesOwn
  frees := by
    rw [hsame.frees, hsame.side, hsame.isBlocked]
    exact h.frees
  mill := by
    rw [hsame.phase, hsame.side, millCount, men, hsame.rule, hsame.layout]
    exact h.mill
  first := by
    rw [hsame.side, hsame.isBlocked, hsame.owed]
    exact h.first
  second := by
    rw [hsame.side, hsame.owed]
    exact h.second

theorem Charged.pending (h : Charged mover start) (hmill : start.millCount mover ≠ 0)
    (haction : start.state.action = .remove) : Pending start start where
  rule := rfl
  takesOwn := h.takesOwn
  frees := h.frees
  mill hplacing := by
    rw [h.placing hplacing haction]
    exact hmill
  first _ := ⟨id, rfl⟩
  second hne := absurd rfl hne

/-- While more than one removal is owed, none of them frees its side. -/
theorem Ledger.frees_of_owed (h : pos.Ledger) (hexcused : pos.Excused)
    (hgoes : pos.state.phase ≠ .finished)
    (howed : 1 < pos.state.owed.white + pos.state.owed.black) : pos.state.freesMover = false := by
  apply eq_false_of_ne_true
  intro hfrees
  have hone := (hexcused hgoes hfrees).1
  have hnone := (h.frees hfrees).2.2
  revert hone hnone
  cases pos.state.side <;> simp only [PerSide.get, Side.other] <;> omega

theorem takesOwn_takeMan {target : Side} (htakes : ∀ c, pos.state.takesOwn.get c = false)
    (c : Side) :
    (pos.takeMan p target).state.takesOwn.get c = false := by
  rw [(takeMan_frame pos p target).takesOwn]
  split
  · by_cases hc : c = pos.state.side
    · rw [hc, PerSide.get_set_self]
    · rw [PerSide.get_set_of_ne _ _ hc, htakes]
  · exact htakes c

/-- The same side goes on paying, or the game is over. -/
theorem Pending.taken (h : Pending start q) (hcons : q.Consistent)
    (hfrees : q.state.freesMover = false)
    (hman : q.contentAt p = q.state.side.other.man) :
    Pending start (q.takeMan p q.state.side.other) := by
  have hframe := takeMan_frame q p q.state.side.other
  refine ⟨hframe.rule.trans h.rule, takesOwn_takeMan h.takesOwn, ?_, ?_, ?_, ?_⟩
  · rw [hframe.frees, hfrees]
    exact nofun
  · rw [hframe.phase, hframe.side, millCount_takeMan hcons hman]
    exact h.mill
  · rw [hframe.side]
    -- the removal pays one of the debts of the side to move and none of the other side
    intro hsame
    obtain ⟨hfirst, hrest⟩ := h.first hsame
    rw [← hsame] at hfirst hrest ⊢
    refine ⟨fun hblocked => hfirst (hcons.isBlocked_of_takeMan hman hblocked), ?_⟩
    rw [hframe.owed, PerSide.get_set_of_ne _ _ (Side.other_ne _), hrest]
  · rw [hframe.side]
    intro hne
    obtain ⟨hrest, hpaid⟩ := h.second hne
    refine ⟨hrest, ?_⟩
    rw [hframe.owed, PerSide.get_set_of_ne _ _ (Ne.symm hne), hpaid]

theorem Pending.paid (h : Pending start q) (hcons : q.Consistent)
    (hfrees : q.state.freesMover = false)
    (howed : 1 < q.state.owed.white + q.state.owed.black)
    (hman : q.contentAt p = q.state.side.other.man) (hpay : q.Payment p next) :
    Pending start next := by
  have hframe := takeMan_frame q p q.state.side.other
  have htaken := h.taken hcons hfrees hman
  cases hpay with
  | beaten winner ending =>
      exact ⟨htaken.rule, htaken.takesOwn, htaken.frees, nofun, htaken.first, htaken.second⟩
  | more => exact htaken
  | turned hmoving hhands hone =>
      have hside : (q.takeMan p q.state.side.other).passTurn.state.side = q.state.side.other :=
        congrArg Side.other hframe.side
      have hphase : (q.takeMan p q.state.side.other).passTurn.state.phase = .moving := by
        apply moving_giveTurn
        rw [hframe.inHand]
        exact hhands _
      have howed' : (q.takeMan p q.state.side.other).passTurn.state.owed =
          q.state.owed.set q.state.side (q.state.owed.get q.state.side - 1) := hframe.owed
      have hrest : q.state.owed.get q.state.side.other ≠ 0 := by
        revert howed hone
        cases q.state.side <;> simp only [PerSide.get, Side.other] <;> omega
      refine ⟨htaken.rule, htaken.takesOwn, ?_, ?_, ?_, ?_⟩
      · intro htrue
        cases (hframe.frees.trans hfrees).symm.trans htrue
      · intro hplacing
        cases hphase.symm.trans hplacing
      · rw [hside]
        intro hsame
        -- a side that has paid does not get the turn again
        have hne : q.state.side ≠ start.state.side := by
          rw [← hsame]
          exact (Side.other_ne _).symm
        rw [hsame] at hrest
        exact absurd (h.second hne).2 hrest
      · rw [hside, howed']
        intro hne
        have hsame : q.state.side = start.state.side := by
          rcases Side.eq_or_eq_other q.state.side start.state.side with heq | heq
          · exact heq
          · rw [heq, Side.other_other] at hne
            exact absurd rfl hne
        rw [← hsame, PerSide.get_set_self, hone, hsame, ← (h.first hsame).2, ← hsame]
        exact ⟨hrest, rfl⟩

/-- What is known at first is known as long as removals are being made. -/
theorem Paying.pending (hq : Paying start q) (hsound : start.Sound) (hbalanced : start.Balanced)
    (hexcused : start.Excused) (hstart : Pending start start) :
    (q.Sound ∧ q.Balanced ∧ q.Excused) ∧ Pending start q := by
  induction hq with
  | owing => exact ⟨⟨hsound, hbalanced, hexcused⟩, hstart⟩
  | @pay q next m _ howed hnext ih =>
      obtain ⟨⟨hsound, hbalanced, hexcused⟩, hpending⟩ := ih
      have hkept := And.intro (hsound.apply hnext)
        (And.intro (hbalanced.apply hsound hnext) (hexcused.apply hbalanced hsound hnext))
      refine ⟨hkept, ?_⟩
      obtain ⟨hledger, p, hremovable, rfl⟩ := hsound.removable_of_owed hbalanced howed hnext
      have hfrees := hledger.frees_of_owed hexcused hremovable.goes howed
      obtain ⟨hman, hpay⟩ := hledger.payment hpending.takesOwn howed hremovable
      have hpaid := hpending.paid hsound.toConsistent hfrees howed hman hpay
      exact hpaid.of_sameTurn (sameTurn_log _ m)

/-! ## Freeing removals among those earned -/

theorem Sound.balanced_setDown (h : pos.Sound) (hbalanced : pos.Balanced)
    (hdown : pos.SetDown p r) :
    r.2.Balanced := by
  obtain ⟨haction, hgoes⟩ := h.idle_of_setDown hdown
  have hclear := (hbalanced.ledger hgoes).clear_of_action h hgoes haction
  cases hdown with
  | placed hphase hp hfree hhand =>
      have hbegun := h.begun (hphase.imp_right And.left)
      exact hclear.begun.balanced_placeMan hbegun.toConsistent hp hfree hhand
  | held s _ _ _ _ => exact Or.inr (hclear.ledger.of_same ⟨rfl, rfl, rfl, rfl, rfl, id, rfl⟩)
  | slid _ _ _ _ => exact hclear.balanced_slideMan _ _

theorem Sound.excused_setDown (h : pos.Sound) (hbalanced : pos.Balanced) (hdown : pos.SetDown p r) :
    r.2.Excused := by
  obtain ⟨haction, hgoes⟩ := h.idle_of_setDown hdown
  have hclear := (hbalanced.ledger hgoes).clear_of_action h hgoes haction
  cases hdown with
  | placed _ _ _ _ =>
      have hbegun : pos.begun.state.freesMover = false := hclear.frees
      exact excused_placeMan hbegun p
  | held s _ _ _ _ => exact excused_of_frees hclear.frees
  | slid _ _ _ _ => exact excused_slideMan hclear.frees _ p

theorem Pending.isFreeingRemoval_iff (h : Pending start q) : q.isFreeingRemoval = true ↔
    (start.rule.stalemateAction.removes = true ∧ q.isBlocked q.state.side = true) ∨
      (q.state.side = .white ∧ q.isFullBoardRemoval = true) := by
  have hfull : q.isFullBoardRemoval = true → q.state.side = .white := by
    intro hfull
    simp only [isFullBoardRemoval, Bool.and_eq_true, beq_iff_eq] at hfull
    obtain ⟨⟨⟨⟨_, hplacing⟩, _⟩, _⟩, hnone⟩ := hfull
    -- Black has a mill if it is Black that removes
    cases hside : q.state.side with
    | white => rfl
    | black =>
        have hmill := h.mill hplacing
        rw [hside] at hmill
        exact absurd hnone hmill
  rw [isFreeingRemoval, Bool.or_eq_true, Bool.and_eq_true, Bool.or_eq_true, h.rule]
  constructor
  · rintro (hboard | ⟨hremoves, hfrees | hblocked⟩)
    · exact Or.inr ⟨hfull hboard, hboard⟩
    · exact Or.inl ⟨hremoves, h.frees hfrees⟩
    · exact Or.inl ⟨hremoves, hblocked⟩
  · rintro (⟨hremoves, hblocked⟩ | ⟨_, hboard⟩)
    · exact Or.inr ⟨hremoves, Or.inr hblocked⟩
    · exact Or.inl hboard

variable {admits : Move → Prop} {rule : Rule}

/-- Removals that a side has earned by a mill are taken for freeing ones if and only if the side
that removes is blocked, under a rule that answers a blocked side with removals, or White has filled
the board and Black has no mill on it. Who pays first does not get blocked while paying, and is not
blocked at all if the mill was closed by a slide. -/
theorem earned_removal (h : PlayedBy admits rule pos)
    (hput : pos.put p = .ok r ∨ pos.release.put p = .ok r ∨ ∃ a, pos.slide a p = .ok r)
    (hmills : r.1 ≠ 0) (haction : r.2.state.action = .remove) (hq : r.2.Paying q) :
    (q.isFreeingRemoval = true ↔
      (rule.stalemateAction.removes = true ∧ q.isBlocked q.state.side = true) ∨
        (q.state.side = .white ∧ q.isFullBoardRemoval = true)) ∧
    (q.state.side = r.2.state.side → q.isBlocked q.state.side = true →
      r.2.isBlocked q.state.side = true) ∧
    (r.2.state.inHand.get pos.state.side = pos.state.inHand.get pos.state.side →
      q.state.side = pos.state.side ∧ q.isBlocked q.state.side = false) := by
  have hsound := h.sound
  have hbalanced := h.reachable.balanced
  have hdown := hsound.setDown_of_ok hput
  obtain ⟨hidle, hgoes⟩ := hsound.idle_of_setDown hdown
  have hclear := (hbalanced.ledger hgoes).clear_of_action hsound hgoes hidle
  have hclosing := hsound.closing hclear hdown hmills
  obtain ⟨_, hpending⟩ :=
    hq.pending (hsound.setDown hdown) (hsound.balanced_setDown hbalanced hdown)
    (hsound.excused_setDown hbalanced hdown) (hclosing.pending hclosing.mill haction)
  refine ⟨?_, fun hside hblocked => ?_, fun hslid => ?_⟩
  · have hiff := hpending.isFreeingRemoval_iff
    rwa [hclosing.rule, h.rule_eq] at hiff
  · rw [hside] at hblocked ⊢
    exact (hpending.first hside).1 hblocked
  -- after a slide nobody but the side that slid owes a removal, and it is not blocked
  · obtain ⟨hside, hrest, hfree⟩ := hclosing.slid hslid
    have hsame : q.state.side = r.2.state.side := by
      by_contra hne
      rw [← hside] at hrest
      exact (hpending.second hne).1 hrest
    refine ⟨hsame.trans hside, eq_false_of_ne_true fun hblocked => ?_⟩
    rw [hsame] at hblocked
    have hstart := (hpending.first hsame).1 hblocked
    rw [hside, hfree] at hstart
    cases hstart

/-- Nine men a side; every mill earns a removal, and a blocked side removes a man and moves on. -/
def freeing : Rule := { mayRemoveMultiple := true, stalemateAction := .removeAndMove }

/-- White has two men on each of two lines that meet on point 8. -/
def doubleLine : List Move :=
  [.place 9, .place 11, .place 15, .place 13, .place 16, .place 19, .place 24, .place 21]

/-- Two mills closed at once: after the first removal the second one is still earned by a mill. -/
theorem earned_removal_doubleLine :
    ∃ pos r q, PlayedBy Move.OnBoard freeing pos ∧ pos.put 8 = .ok r ∧ r.1 = 2 ∧ r.2.Paying q ∧
      q.state.owed.white = 1 ∧ q.isFreeingRemoval = false := by
  have hrun : ((ofVariant (.ofRule freeing)).applyAll? doubleLine).any (fun pos =>
      (pos.put 8).toOption.any fun r => (r.2.apply (.remove 11)).toOption.any fun q =>
        decide (r.1 = 2 ∧ r.2.state.action = .remove ∧
          1 < r.2.state.owed.white + r.2.state.owed.black ∧ q.state.owed.white = 1 ∧
          q.isBlocked q.state.side = false ∧ q.isFullBoardRemoval = false)) = true := by
    decide +kernel
  obtain ⟨pos, hpos, hrest⟩ := (Option.any_eq_true _ _).1 hrun
  obtain ⟨r, hput, hrest⟩ := (Option.any_eq_true _ _).1 hrest
  obtain ⟨q, hnext, hfacts⟩ := (Option.any_eq_true _ _).1 hrest
  obtain ⟨htwo, haction, howed, hone, hfree, hroom⟩ := of_decide_eq_true hfacts
  have hplayed : PlayedBy Move.OnBoard freeing pos :=
    (PlayedBy.begin rfl).applyAll (show ∀ m ∈ doubleLine, m.OnBoard by decide +kernel) hpos
  have hput' := toOption_eq_some_iff.1 hput
  have hq : r.2.Paying q := Paying.owing.pay howed (toOption_eq_some_iff.1 hnext)
  have hiff := (earned_removal hplayed (Or.inl hput') (by rw [htwo]; decide) haction hq).1
  refine ⟨pos, r, q, hplayed, hput', htwo, hq, hone, eq_false_of_ne_true fun hfreeing => ?_⟩
  rcases hiff.1 hfreeing with ⟨_, hblocked⟩ | ⟨_, hboard⟩
  · rw [hfree] at hblocked
    cases hblocked
  · rw [hroom] at hboard
    cases hboard

/-- White's men fill half a ring and Black's stand around them. -/
def hemmedMill : List Move :=
  [.place 8, .place 10, .place 9, .place 12, .place 13, .place 16, .place 14, .place 22]

/-- A removal that a mill has earned may be taken for one that frees a side: White's last man closes
a mill and hems all of White's men in. -/
theorem not_forall_earned_removal :
    ¬ ∀ (rule : Rule) (pos : Position) (p : Point) (r : Nat × Position) (q : Position),
      PlayedBy Move.OnBoard rule pos → pos.put p = .ok r → r.1 ≠ 0 →
        r.2.state.action = .remove → r.2.Paying q → q.isFreeingRemoval = false := by
  intro hall
  have hrun : ((ofVariant (.ofRule freeing)).applyAll? hemmedMill).any (fun pos =>
      (pos.put 15).toOption.any fun r => decide (r.1 ≠ 0 ∧ r.2.state.action = .remove ∧
        r.2.isFreeingRemoval = true)) = true := by
    decide +kernel
  obtain ⟨pos, hpos, hrest⟩ := (Option.any_eq_true _ _).1 hrun
  obtain ⟨r, hput, hfacts⟩ := (Option.any_eq_true _ _).1 hrest
  obtain ⟨hmills, haction, hfreeing⟩ := of_decide_eq_true hfacts
  have hplayed : PlayedBy Move.OnBoard freeing pos :=
    (PlayedBy.begin rfl).applyAll (show ∀ m ∈ hemmedMill, m.OnBoard by decide +kernel) hpos
  have hordinary := hall freeing pos 15 r r.2 hplayed (toOption_eq_some_iff.1 hput) hmills haction
    .owing
  rw [hfreeing] at hordinary
  cases hordinary

end Position

end Morris
