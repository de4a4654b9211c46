import Morris.Proofs.Legal

/-!
# Which accepted moves are listed

Under a rule that does not allow sliding while men are being placed, the list of legal moves holds
every placement and every removal that a position accepts. Of the slides it holds all but those
`HeldBack`: where repeated mills are restricted, the list leaves out the slides by which the man
that closed the last mill of its side would leave it for another mill, and the position accepts
them. Main statement: `reachable_legalMoves_iff`, which gives for each form of move the exact
condition under which it is listed.
-/

set_option autoImplicit false

namespace Morris

/-! ## The board -/

/-- A man may slide from a live point only to its neighbours. -/
theorem Board.mem_neighbours {diagonals : Bool} {a b : Point} (ha : Point.onBoard a = true)
    (hadjacent : Board.isAdjacent diagonals a b = true) : b ∈ Board.neighbours diagonals a := by
  have haround : ∀ diagonals : Bool, ∀ a ∈ Point.all,
      Board.around diagonals a = .ofPoints (Board.neighbours diagonals a) := by
    decide +kernel
  have hlive : ∀ q ∈ Board.neighbours diagonals a, q < 32 := fun q hq =>
    Point.lt_of_onBoard (Board.of_mem_neighbours ha hq).1
  rw [Board.isAdjacent, haround diagonals a ((Point.mem_all a).2 ha),
    Bitboard.contains_ofPoints hlive] at hadjacent
  exact of_decide_eq_true hadjacent

/-- Slides between live points have the same code only if they are the same. -/
theorem Move.slide_inj {a b a' b' : Point} (ha : Point.onBoard a = true)
    (hb : Point.onBoard b = true) (ha' : Point.onBoard a' = true) (hb' : Point.onBoard b' = true)
    (h : Move.slide a b = Move.slide a' b') : a = a' ∧ b = b' := by
  obtain ⟨_, horigin, htarget⟩ := Move.slide_spec ha hb
  obtain ⟨_, horigin', htarget'⟩ := Move.slide_spec ha' hb'
  rw [h] at horigin htarget
  exact ⟨horigin.symm.trans horigin', htarget.symm.trans htarget'⟩

namespace Position

variable {pos : Position}

/-! ## Placements -/

theorem mem_placements_of_empty (h : pos.Consistent) {p : Point} (hp : Point.onBoard p = true)
    (hfree : pos.contentAt p = .empty) (hhand : pos.state.inHand.get pos.state.side ≠ 0) :
    Move.place p ∈ pos.placements := by
  rw [placements, if_neg hhand]
  apply List.mem_map_of_mem
  rw [List.mem_filter, h.mem_order, beq_iff_eq]
  exact ⟨hp, hfree⟩

/-- An accepted placement takes a man from the hand to an empty point, unless men may slide while
others are being placed. -/
theorem Sound.of_apply_place (h : pos.Sound) (hmay : pos.rule.mayMoveWhilePlacing = false)
    {p : Point} (hp : Point.onBoard p = true) {next : Position}
    (hnext : pos.apply (.place p) = .ok next) :
    (pos.state.phase = .ready ∨ (pos.state.phase = .placing ∧ pos.state.action = .place)) ∧
      pos.contentAt p = .empty ∧ pos.state.inHand.get pos.state.side ≠ 0 := by
  obtain ⟨r, hr, _⟩ := (apply_place_iff hp).1 hnext
  have hreleased : pos.release.Sound := h.of_sameTurn (sameTurn_release pos)
  have hput := hreleased.put_cases hr
  generalize r.2 = placed at hput
  cases hput with
  | placed hphase _ hfree hhand =>
      exact ⟨hphase.imp_right fun hplacing => ⟨hplacing.1, hplacing.2.1⟩, hfree, hhand⟩
  | picked _ hmay' _ _ =>
      rw [show pos.release.rule = pos.rule from rfl, hmay] at hmay'
      cases hmay'
  | slid _ _ _ hselected _ => cases hselected

/-! ## Slides -/

/-- A slide that the list leaves out although it is accepted: repeated mills are restricted, the
side does not fly, and the man that closed its last mill would leave it, while it stands, for
another. -/
def HeldBack (pos : Position) (a b : Point) : Prop :=
  pos.canFly pos.state.side = false ∧ pos.rule.restrictRepeatedMills = true ∧
    (∃ l, pos.state.lastMill.get pos.state.side = some l ∧ l.2 = a) ∧
    0 < pos.potentialMills b (some pos.state.side) a ∧ 0 < pos.millsAt a

theorem isBarredSlide_iff {a b : Point} (hfly : pos.canFly pos.state.side = false)
    (hback : pos.returnsToMill a b = false) :
    pos.isBarredSlide a b = true ↔ pos.HeldBack a b := by
  simp [isBarredSlide, HeldBack, hfly, hback, Option.any_eq_true, and_assoc]

theorem mem_slideTargets_iff (h : pos.Consistent) {a b : Point}
    (ha : pos.contentAt a = pos.state.side.man) :
    b ∈ pos.slideTargets a ↔ Point.onBoard b = true ∧ pos.Slidable a b ∧ ¬ pos.HeldBack a b := by
  constructor
  · intro hb
    obtain ⟨hlive, hslide⟩ := slidable_of_mem_slideTargets h ha hb
    refine ⟨hlive, hslide, fun hheld => ?_⟩
    have hbarred := (isBarredSlide_iff hheld.1 hslide.back).2 hheld
    simp [slideTargets, hheld.1, hbarred] at hb
  · rintro ⟨hb, hslide, hheld⟩
    cases hfly : pos.canFly pos.state.side with
    -- a flying side is not held back
    | true =>
        simp only [slideTargets, hfly, if_true, List.mem_filter, h.mem_order]
        simp [hb, hslide.free, hslide.back]
    | false =>
        have hnear : b ∈ pos.neighbours a := by
          apply Board.mem_neighbours (h.onBoard_of_man ha)
          simpa [hfly] using hslide.reach
        have hbarred : pos.isBarredSlide a b = false :=
          eq_false_of_ne_true fun hb => hheld ((isBarredSlide_iff hfly hslide.back).1 hb)
        simp [slideTargets, hfly, hnear, hslide.free, hbarred]

theorem mem_slides_iff (h : pos.Consistent) (hphase : pos.state.phase = .moving) {a b : Point}
    (ha : Point.onBoard a = true) (hb : Point.onBoard b = true) :
    Move.slide a b ∈ pos.slides ↔ pos.Slidable a b ∧ ¬ pos.HeldBack a b := by
  have hallowed : ¬ ((pos.state.phase == .ready || pos.state.phase == .placing)
      && !pos.rule.mayMoveWhilePlacing) = true := by
    simp [hphase]
  simp only [slides, if_neg hallowed, List.mem_flatMap, List.mem_filter, List.mem_reverse,
    beq_iff_eq]
  constructor
  · rintro ⟨a', ⟨_, hman⟩, hm⟩
    obtain ⟨b', hb', hsame⟩ := List.mem_map.1 hm
    obtain ⟨hlive, hslide, hheld⟩ := (mem_slideTargets_iff h hman).1 hb'
    -- the code of a slide tells its ends, so it is this slide
    obtain ⟨rfl, rfl⟩ := Move.slide_inj (h.onBoard_of_man hman) hlive ha hb hsame
    exact ⟨hslide, hheld⟩
  · rintro ⟨hslide, hheld⟩
    refine ⟨a, ⟨(h.mem_order a).2 ha, hslide.man⟩, List.mem_map_of_mem ?_⟩
    exact (mem_slideTargets_iff h hslide.man).2 ⟨hb, hslide, hheld⟩

/-- An accepted slide is possible, and men are being slid, unless they may slide while others are
being placed. -/
theorem Sound.of_apply_slide (h : pos.Sound) (hmay : pos.rule.mayMoveWhilePlacing = false)
    {a b : Point} (ha : Point.onBoard a = true) (hb : Point.onBoard b = true) {next : Position}
    (hnext : pos.apply (.slide a b) = .ok next) :
    pos.state.phase = .moving ∧ pos.state.action ≠ .remove ∧ pos.Slidable a b := by
  obtain ⟨r, hr, _⟩ := (apply_slide_iff ha hb).1 hnext
  obtain ⟨picked, hselect, hput⟩ := bind_eq_ok_iff.1 hr
  have hpicked := h.select hselect
  obtain ⟨hphase, haction, _, _, rfl⟩ := select_ok_iff.1 hselect
  have hmoving : pos.state.phase = .moving := by
    rcases hphase with hmoving | ⟨_, hmay'⟩
    · exact hmoving
    · rw [hmay] at hmay'
      cases hmay'
  refine ⟨hmoving, haction, ?_⟩
  have hmoving' : (pos.pick a).state.phase = .moving := hmoving
  have hslid := hpicked.put_cases hput
  -- with a man picked up in the moving phase, pointing at a point can only slide it
  generalize r.2 = slid at hslid
  cases hslid with
  | placed hphase _ _ _ => simp [hmoving'] at hphase
  | picked hphase _ _ _ => simp [hmoving'] at hphase
  | slid _ _ _ hselected hslide =>
      cases hselected
      exact ⟨hslide.man, hslide.free, hslide.reach, hslide.back⟩

/-! ## All moves -/

theorem legalMoves_of_moving (hphase : pos.state.phase = .moving)
    (haction : pos.state.action ≠ .remove) : pos.legalMoves = pos.slides := by
  simp only [legalMoves, hphase]

theorem Sound.mem_legalMoves_place_iff (h : pos.Sound) (hover : pos.state.phase ≠ .finished)
    (hmay : pos.rule.mayMoveWhilePlacing = false) {p : Point} (hp : Point.onBoard p = true) :
    Move.place p ∈ pos.legalMoves ↔ ∃ next, pos.apply (.place p) = .ok next := by
  constructor
  · exact h.exists_apply hover
  · rintro ⟨next, hnext⟩
    obtain ⟨hphase, hfree, hhand⟩ := h.of_apply_place hmay hp hnext
    have hlisted := mem_placements_of_empty h.toConsistent hp hfree hhand
    have haction : pos.state.action = .place := by
      rcases hphase with hready | ⟨_, haction⟩
      · exact (h.stage.untouched_of_ready hready).action
      · exact haction
    rcases hphase with hphase | ⟨hphase, _⟩ <;>
      · simp only [legalMoves, haction, hphase]
        exact List.mem_append_left _ hlisted

theorem Sound.mem_legalMoves_remove_iff (h : pos.Sound) (hover : pos.state.phase ≠ .finished)
    {p : Point} (hp : Point.onBoard p = true) :
    Move.remove p ∈ pos.legalMoves ↔ ∃ next, pos.apply (.remove p) = .ok next := by
  constructor
  · exact h.exists_apply hover
  · rintro ⟨next, hnext⟩
    obtain ⟨removed, hremove, _⟩ := (apply_remove_iff hp).1 hnext
    obtain ⟨hremovable, _⟩ := remove_ok_iff.1 hremove
    have hturned := (h.stage.turned_of hremovable.inProgress).1
    simp only [legalMoves, hremovable.action]
    exact (mem_removals_iff h.toConsistent hturned hremovable.action).2 ⟨p, hremovable, rfl⟩

theorem Sound.mem_legalMoves_slide_iff (h : pos.Sound) (hover : pos.state.phase ≠ .finished)
    (hmay : pos.rule.mayMoveWhilePlacing = false) {a b : Point} (ha : Point.onBoard a = true)
    (hb : Point.onBoard b = true) :
    Move.slide a b ∈ pos.legalMoves ↔
      (∃ next, pos.apply (.slide a b) = .ok next) ∧ ¬ pos.HeldBack a b := by
  -- either side says that the slide is accepted, so men are being slid
  have hlisted : ∀ next, pos.apply (.slide a b) = .ok next →
      (Move.slide a b ∈ pos.legalMoves ↔ ¬ pos.HeldBack a b) := by
    intro next hnext
    obtain ⟨hphase, haction, hslide⟩ := h.of_apply_slide hmay ha hb hnext
    rw [legalMoves_of_moving hphase haction, mem_slides_iff h.toConsistent hphase ha hb]
    exact and_iff_right hslide
  constructor
  · intro hm
    obtain ⟨next, hnext⟩ := h.exists_apply hover hm
    exact ⟨⟨next, hnext⟩, (hlisted next hnext).1 hm⟩
  · rintro ⟨⟨next, hnext⟩, hheld⟩
    exact (hlisted next hnext).2 hheld

/-- Under a rule that does not allow sliding while men are being placed, the listed placements and
removals are exactly the accepted ones, and the listed slides are the accepted ones that are not
held back. -/
theorem reachable_legalMoves_iff {rule : Rule} (h : Reachable rule pos)
    (hmay : pos.rule.mayMoveWhilePlacing = false) (hover : pos.state.phase ≠ .finished) :
    (∀ p, Point.onBoard p = true →
      (Move.place p ∈ pos.legalMoves ↔ ∃ next, pos.apply (.place p) = .ok next)) ∧
    (∀ p, Point.onBoard p = true →
      (Move.remove p ∈ pos.legalMoves ↔ ∃ next, pos.apply (.remove p) = .ok next)) ∧
    (∀ a b, Point.onBoard a = true → Point.onBoard b = true →
      (Move.slide a b ∈ pos.legalMoves ↔
        (∃ next, pos.apply (.slide a b) = .ok next) ∧ ¬ pos.HeldBack a b)) := by
  have hsound := h.sound
  exact ⟨fun p hp => hsound.mem_legalMoves_place_iff hover hmay hp,
    fun p hp => hsound.mem_legalMoves_remove_iff hover hp,
    fun a b ha hb => hsound.mem_legalMoves_slide_iff hover hmay ha hb⟩

/-- Six men a side on the board with diagonals, where repeated mills are restricted and no side
flies. -/
def restrictedSix : Rule where
  pieceCount := 6
  hasDiagonals := true
  restrictRepeatedMills := true
  mayFly := false

/-- White has just closed a mill by sliding a man out of another, and has taken a man. -/
def millLeft : Position :=
  (ofVariant (.ofRule restrictedSix)).performAll
    [.apply (.place 19), .apply (.place 12), .apply (.place 18), .apply (.place 26),
      .apply (.place 17), .apply (.remove 26), .apply (.place 30), .apply (.place 8),
      .apply (.place 24), .apply (.place 25), .apply (.place 29), .apply (.place 15),
      .apply (.place 27), .apply (.slide 25 26), .apply (.slide 30 22), .apply (.slide 17 9),
      .apply (.remove 24), .apply (.slide 22 30)]

theorem reachable_millLeft : Reachable restrictedSix millLeft :=
  (Reachable.begin rfl).performAll _

/-- Men are slid in the position, White does not fly, and the man that closed White's last mill
still stands in it; sliding it, or another man, to a certain point completes a second mill, and both
slides are accepted. -/
theorem millLeft_spec :
    millLeft.rule.mayMoveWhilePlacing = false ∧ millLeft.state.phase ≠ .finished ∧
      millLeft.state.lastMill.get millLeft.state.side = some (17, 9) ∧
      (millLeft.canFly millLeft.state.side = false ∧
        millLeft.rule.restrictRepeatedMills = true ∧
        0 < millLeft.potentialMills 10 (some millLeft.state.side) 9 ∧ 0 < millLeft.millsAt 9) ∧
      (millLeft.apply (.slide 9 10)).toOption.isSome = true ∧
      (millLeft.apply (.slide 18 10)).toOption.isSome = true := by
  decide +kernel

theorem exists_apply_of_isSome {m : Move} (h : (pos.apply m).toOption.isSome = true) :
    ∃ next, pos.apply m = .ok next := by
  obtain ⟨next, hnext⟩ := Option.isSome_iff_exists.1 h
  exact ⟨next, toOption_eq_some_iff.1 hnext⟩

theorem heldBack_millLeft (a : Point) : millLeft.HeldBack a 10 ↔ a = 9 := by
  obtain ⟨_, _, hlast, ⟨hfly, hrestricts, hcloses, hstands⟩, _⟩ := millLeft_spec
  constructor
  · rintro ⟨_, _, ⟨l, hl, hend⟩, _⟩
    rw [hlast] at hl
    cases hl
    exact hend.symm
  · rintro rfl
    exact ⟨hfly, hrestricts, ⟨(17, 9), hlast, rfl⟩, hcloses, hstands⟩

/-- The man that closed the last mill may be slid into another, and the list leaves that slide out;
the slide of another man to the same point, which closes a mill too, is listed. -/
theorem reachable_legalMoves_iff_held_back :
    Reachable restrictedSix millLeft ∧ millLeft.rule.mayMoveWhilePlacing = false ∧
      millLeft.state.phase ≠ .finished ∧ millLeft.HeldBack 9 10 ∧
      Move.slide 9 10 ∉ millLeft.legalMoves ∧ Move.slide 18 10 ∈ millLeft.legalMoves := by
  obtain ⟨hmay, hover, _, _, _, hother⟩ := millLeft_spec
  obtain ⟨_, _, hslides⟩ := reachable_legalMoves_iff reachable_millLeft hmay hover
  have hheld := (heldBack_millLeft 9).2 rfl
  have hfree : ¬ millLeft.HeldBack 18 10 := fun h => absurd ((heldBack_millLeft 18).1 h) (by decide)
  exact ⟨reachable_millLeft, hmay, hover, hheld,
    fun hm => ((hslides 9 10 rfl rfl).1 hm).2 hheld,
    (hslides 18 10 rfl rfl).2 ⟨exists_apply_of_isSome hother, hfree⟩⟩

/-- Not every accepted slide is listed, although men may not slide while others are being placed. -/
theorem not_forall_accepted_slides_listed :
    ¬ ∀ (rule : Rule) (pos next : Position) (a b : Point), Reachable rule pos →
      pos.rule.mayMoveWhilePlacing = false → pos.state.phase ≠ .finished →
      Point.onBoard a = true → Point.onBoard b = true → a ≠ b →
      pos.apply (.slide a b) = .ok next → Move.slide a b ∈ pos.legalMoves := by
  intro hall
  obtain ⟨hmay, hover, _, _, haccepted, _⟩ := millLeft_spec
  obtain ⟨next, hnext⟩ := exists_apply_of_isSome haccepted
  have hlisted := hall _ millLeft next 9 10 reachable_millLeft hmay hover rfl rfl (by decide) hnext
  have hsound := reachable_millLeft.sound
  exact ((hsound.mem_legalMoves_slide_iff hover hmay rfl rfl).1 hlisted).2
    ((heldBack_millLeft 9).2 rfl)

end Position

end Morris
