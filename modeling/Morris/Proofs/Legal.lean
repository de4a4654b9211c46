import Morris.Moves.Legal
import Morris.Proofs.Reachable

/-!
# Legal moves are accepted

The list of legal moves and the operations that play them decide separately what is allowed. On a
sound position they agree in one direction: every listed move is accepted
(`Position.Sound.exists_apply`). The three kinds of moves are treated one after another, each by the
conditions under which the operation accepts it; the stage of the game supplies what the list does
not look at.
-/

set_option autoImplicit false

namespace Morris

/-! ## The board -/

theorem Board.order_perm_all (diagonals : Bool) : (Board.order diagonals).Perm Point.all := by
  cases diagonals <;> decide +kernel

theorem Board.mem_order (diagonals : Bool) (p : Point) :
    p ∈ Board.order diagonals ↔ Point.onBoard p = true := by
  rw [(Board.order_perm_all diagonals).mem_iff, Point.mem_all]

/-- The neighbours of a live point are live, and a man may slide to them. -/
theorem Board.of_mem_neighbours {diagonals : Bool} {a b : Point} (ha : Point.onBoard a = true)
    (hb : b ∈ Board.neighbours diagonals a) :
    Point.onBoard b = true ∧ Board.isAdjacent diagonals a b = true := by
  have hall : ∀ diagonals : Bool, ∀ a ∈ Point.all, ∀ b ∈ Board.neighbours diagonals a,
      Point.onBoard b = true ∧ Board.isAdjacent diagonals a b = true := by
    decide +kernel
  exact hall diagonals a ((Point.mem_all a).2 ha) b hb

namespace Position

variable {pos : Position}

theorem Consistent.mem_order (h : pos.Consistent) (p : Point) :
    p ∈ pos.variant.order ↔ Point.onBoard p = true := by
  rw [h.order.mem_iff, Board.mem_order]

/-! ## Removals -/

/-- The men of the side that loses one, as the list of removals runs through them. -/
theorem Consistent.mem_targets (h : pos.Consistent) (p : Point) :
    p ∈ (pos.variant.order.reverse.filter fun p => pos.contentAt p == pos.removalTarget.man) ↔
      Point.onBoard p = true ∧ pos.contentAt p = pos.removalTarget.man := by
  rw [List.mem_filter, List.mem_reverse, h.mem_order, beq_iff_eq]

/-- The listed removals are those that are accepted. -/
theorem mem_removals_iff (h : pos.Consistent) (hturned : pos.Turned)
    (haction : pos.state.action = .remove) {m : Move} :
    m ∈ pos.removals ↔ ∃ p, pos.Removable p ∧ Move.remove p = m := by
  simp only [removals, List.mem_map]
  refine exists_congr fun p => and_congr_left fun _ => ?_
  have howes := hturned.owes.1 haction
  constructor
  · intro hp
    split at hp
    · rename_i hfrees
      rw [List.mem_filter, h.mem_targets, Bool.or_eq_true] at hp
      have hnot : pos.isFreeingRemoval ≠ false := by
        rw [hfrees]
        decide
      exact ⟨hturned.inProgress, haction, howes, hp.1.1, hp.1.2, fun _ => hp.2,
        fun hearned => absurd hearned hnot⟩
    · rename_i hearned
      split at hp
      · -- men in mills are not spared
        rename_i hlifted
        rw [h.mem_targets] at hp
        rw [Bool.or_eq_true] at hlifted
        refine ⟨hturned.inProgress, haction, howes, hp.1, hp.2,
          fun hfrees => absurd hfrees hearned, fun _ => ?_⟩
        rcases hlifted with hmay | hall
        · exact Or.inl hmay
        · exact Or.inr (Or.inr hall)
      · rw [List.mem_filter, h.mem_targets, beq_iff_eq] at hp
        exact ⟨hturned.inProgress, haction, howes, hp.1.1, hp.1.2,
          fun hfrees => absurd hfrees hearned, fun _ => Or.inr (Or.inl hp.2)⟩
  · intro hp
    split
    · rename_i hfrees
      rw [List.mem_filter, h.mem_targets, Bool.or_eq_true]
      exact ⟨⟨hp.onBoard, hp.man⟩, hp.touching hfrees⟩
    · rename_i hearned
      have hcases := hp.unprotected (eq_false_of_ne_true hearned)
      split
      · exact (h.mem_targets p).2 ⟨hp.onBoard, hp.man⟩
      · rename_i hprotects
        rw [Bool.or_eq_true, not_or] at hprotects
        rw [List.mem_filter, h.mem_targets, beq_iff_eq]
        refine ⟨⟨hp.onBoard, hp.man⟩, ?_⟩
        rcases hcases with hmay | hfree | hall
        · exact absurd hmay hprotects.1
        · exact hfree
        · exact absurd hall hprotects.2

/-! ## Placements -/

theorem of_mem_placements (h : pos.Consistent) {m : Move} (hm : m ∈ pos.placements) :
    ∃ p, Move.place p = m ∧ Point.onBoard p = true ∧ pos.contentAt p = .empty ∧
      pos.state.inHand.get pos.state.side ≠ 0 := by
  simp only [placements] at hm
  split at hm
  · cases hm
  · rename_i hhand
    obtain ⟨p, hp, rfl⟩ := List.mem_map.1 hm
    rw [List.mem_filter, h.mem_order, beq_iff_eq] at hp
    exact ⟨p, rfl, hp.1, hp.2, hhand⟩

/-- A man from the hand can be put on an empty point when no man is picked up. -/
theorem put_of_placing {p : Point} (hphase : pos.state.phase = .ready ∨
      (pos.state.phase = .placing ∧ pos.state.action = .place))
    (hselected : pos.state.selected = none) (hp : Point.onBoard p = true)
    (hfree : pos.contentAt p = .empty) (hhand : pos.state.inHand.get pos.state.side ≠ 0) :
    pos.put p = .ok (pos.start.placeMan p) := by
  have hplace : pos.placeFromHand p = .ok (pos.start.placeMan p) :=
    placeFromHand_iff.2 ⟨hhand, rfl⟩
  rw [put_ok_iff, pointFault_eq_none_iff]
  rcases hphase with hready | ⟨hplacing, haction⟩
  · refine ⟨⟨by rw [hready]; decide, hp, Or.inl hfree⟩, ?_⟩
    simp only [putOn, hready]
    exact hplace
  · refine ⟨⟨by rw [hplacing]; decide, hp, Or.inl hfree⟩, ?_⟩
    simp only [putOn, hplacing, haction, hfree, hselected]
    simpa using hplace

/-! ## Slides -/

theorem slidable_of_mem_slideTargets (h : pos.Consistent) {a b : Point}
    (ha : pos.contentAt a = pos.state.side.man) (hb : b ∈ pos.slideTargets a) :
    Point.onBoard b = true ∧ pos.Slidable a b := by
  simp only [slideTargets] at hb
  split at hb
  · rename_i hfly
    simp only [List.mem_filter, h.mem_order, Bool.and_eq_true, beq_iff_eq, Bool.not_eq_true']
      at hb
    exact ⟨hb.1, ha, hb.2.1, Or.inl hfly, hb.2.2⟩
  · simp only [List.mem_filter, Bool.and_eq_true, beq_iff_eq, Bool.not_eq_true'] at hb
    obtain ⟨hnear, hfree, hbarred⟩ := hb
    obtain ⟨hlive, hadjacent⟩ := Board.of_mem_neighbours (h.onBoard_of_man ha) hnear
    refine ⟨hlive, ha, hfree, Or.inr hadjacent, ?_⟩
    -- a slide back into the mill is barred whether or not the man may close another
    cases hback : pos.returnsToMill a b with
    | false => rfl
    | true =>
        have hrestricts : pos.rule.restrictRepeatedMills = true := by
          rw [returnsToMill] at hback
          simp only at hback
          split at hback
          · rename_i hcond
            rw [Bool.and_eq_true] at hcond
            exact hcond.1
          · cases hback
        simp [isBarredSlide, hback, hrestricts] at hbarred

theorem of_mem_slides (h : pos.Consistent) {m : Move} (hm : m ∈ pos.slides) :
    ∃ a b, Move.slide a b = m ∧ Point.onBoard b = true ∧ pos.Slidable a b ∧
      ((pos.state.phase ≠ .ready ∧ pos.state.phase ≠ .placing) ∨
        pos.rule.mayMoveWhilePlacing = true) := by
  simp only [slides] at hm
  split at hm
  · cases hm
  · rename_i hallowed
    simp only [List.mem_flatMap, List.mem_filter, List.mem_reverse, beq_iff_eq, List.mem_map] at hm
    obtain ⟨a, ⟨_, ha⟩, b, hb, rfl⟩ := hm
    obtain ⟨hlive, hslide⟩ := slidable_of_mem_slideTargets h ha hb
    refine ⟨a, b, rfl, hlive, hslide, ?_⟩
    cases hmay : pos.rule.mayMoveWhilePlacing with
    | true => exact Or.inr rfl
    | false =>
        left
        simpa [hmay] using hallowed

/-- A slide that is possible is accepted while men are slid, or are placed under a rule that allows
sliding. -/
theorem slide_of_slidable (h : pos.Consistent) {a b : Point}
    (hphase : pos.state.phase = .moving ∨
      (pos.state.phase = .placing ∧ pos.rule.mayMoveWhilePlacing = true))
    (haction : pos.state.action ≠ .remove) (hb : Point.onBoard b = true)
    (hslide : pos.Slidable a b) : pos.slide a b = .ok ((pos.pick a).slideMan a b) := by
  have ha := h.onBoard_of_man hslide.man
  have hselect : pos.select a = .ok (pos.pick a) :=
    select_ok_iff.2 ⟨hphase, haction, ha, hslide.man, rfl⟩
  -- picking the man up changes nothing that the slide depends on
  have hpicked : (pos.pick a).Slidable a b := ⟨hslide.man, hslide.free, hslide.reach, hslide.back⟩
  have hslid : (pos.pick a).slideSelected b = .ok ((pos.pick a).slideMan a b) :=
    slideSelected_iff.2 ⟨a, rfl, hpicked, rfl⟩
  have hfree : (pos.pick a).contentAt b = .empty := hslide.free
  have haction' : (pos.pick a).state.action = .place := rfl
  have hselected : (pos.pick a).state.selected = some a := rfl
  have hput : (pos.pick a).put b = .ok ((pos.pick a).slideMan a b) := by
    rw [put_ok_iff, pointFault_eq_none_iff]
    rcases hphase with hmoving | ⟨hplacing, hmay⟩
    · have hmoving' : (pos.pick a).state.phase = .moving := hmoving
      refine ⟨⟨by rw [hmoving']; decide, hb, Or.inl hfree⟩, ?_⟩
      simp only [putOn, hmoving', haction']
      exact hslid
    · have hplacing' : (pos.pick a).state.phase = .placing := hplacing
      have hmay' : (pos.pick a).rule.mayMoveWhilePlacing = true := hmay
      refine ⟨⟨by rw [hplacing']; decide, hb, Or.inl hfree⟩, ?_⟩
      simp only [putOn, hplacing', haction', hmay', hfree, hselected]
      simpa using hslid
  exact bind_eq_ok_iff.2 ⟨_, hselect, hput⟩

/-! ## All moves -/

namespace Sound

variable {m : Move}

/-- Where a listed move comes from: removals while one is owed, and slides and placements
otherwise. -/
theorem mem_legalMoves (h : pos.Sound) (hover : pos.state.phase ≠ .finished)
    (hm : m ∈ pos.legalMoves) :
    (pos.Turned ∧ pos.state.action = .remove ∧ m ∈ pos.removals) ∨
      (pos.state.action ≠ .remove ∧ m ∈ pos.slides) ∨
      ((pos.state.phase = .ready ∨ (pos.state.phase = .placing ∧ pos.state.action = .place)) ∧
        m ∈ pos.placements) := by
  by_cases haction : pos.state.action = .remove
  · simp only [legalMoves, haction] at hm
    cases h.stage with
    | untouched huntouched =>
        rw [huntouched.action] at haction
        cases haction
    | going hturned _ => exact Or.inl ⟨hturned, haction, hm⟩
    | finished hfinished => exact absurd hfinished hover
  -- nothing is to be removed, and the phase tells which moves are listed
  · right
    cases hphase : pos.state.phase with
    | ready =>
        have hplace := (h.stage.untouched_of_ready hphase).action
        simp only [legalMoves, hplace, hphase, List.mem_append] at hm
        rcases hm with hm | hm
        · exact Or.inr ⟨Or.inl rfl, hm⟩
        · exact Or.inl ⟨haction, hm⟩
    | placing =>
        have hplace := h.stage.place_of_placing hphase haction
        simp only [legalMoves, hplace, hphase, List.mem_append] at hm
        rcases hm with hm | hm
        · exact Or.inr ⟨Or.inr ⟨rfl, hplace⟩, hm⟩
        · exact Or.inl ⟨haction, hm⟩
    | moving =>
        have hslides : m ∈ pos.slides := by
          simp only [legalMoves] at hm
          cases hact : pos.state.action with
          | remove => exact absurd hact haction
          | place => simpa only [hact, hphase] using hm
          | select => simpa only [hact, hphase] using hm
        exact Or.inl ⟨haction, hslides⟩
    | finished => exact absurd hphase hover

/-- Men are slid, or placed under a rule that allows sliding, where a slide is listed. -/
theorem of_mem_slides (h : pos.Sound) (hover : pos.state.phase ≠ .finished) (hm : m ∈ pos.slides) :
    ∃ a b, Move.slide a b = m ∧ Point.onBoard b = true ∧ pos.Slidable a b ∧
      (pos.state.phase = .moving ∨
        (pos.state.phase = .placing ∧ pos.rule.mayMoveWhilePlacing = true)) := by
  obtain ⟨a, b, hmove, hb, hslide, hallowed⟩ := Position.of_mem_slides h.toConsistent hm
  refine ⟨a, b, hmove, hb, hslide, ?_⟩
  cases hphase : pos.state.phase with
  | ready =>
      -- no man stands on the board of a game that has not begun
      have hempty := (h.stage.untouched_of_ready hphase).content a
      rw [hslide.man] at hempty
      exact absurd hempty (Side.man_ne_empty _)
  | placing =>
      rcases hallowed with ⟨_, hne⟩ | hmay
      · exact absurd hphase hne
      · exact Or.inr ⟨rfl, hmay⟩
  | moving => exact Or.inl rfl
  | finished => exact absurd hphase hover

theorem exists_apply_of_mem_slides (h : pos.Sound) (hover : pos.state.phase ≠ .finished)
    (haction : pos.state.action ≠ .remove) (hm : m ∈ pos.slides) :
    ∃ next, pos.apply m = .ok next := by
  obtain ⟨a, b, rfl, hb, hslide, hphase⟩ := h.of_mem_slides hover hm
  have hslid := slide_of_slidable h.toConsistent hphase haction hb hslide
  exact ⟨_, (apply_slide_iff (h.onBoard_of_man hslide.man) hb).2 ⟨_, hslid, rfl⟩⟩

/-- A sound position that is not over accepts every move that it lists. -/
theorem exists_apply (h : pos.Sound) (hover : pos.state.phase ≠ .finished)
    (hm : m ∈ pos.legalMoves) : ∃ next, pos.apply m = .ok next := by
  rcases h.mem_legalMoves hover hm with ⟨hturned, haction, hm⟩ | ⟨haction, hm⟩ | ⟨hphase, hm⟩
  · obtain ⟨p, hp, rfl⟩ := (mem_removals_iff h.toConsistent hturned haction).1 hm
    exact ⟨_, (apply_remove_iff hp.onBoard).2 ⟨_, remove_ok_iff.2 ⟨hp, rfl⟩, rfl⟩⟩
  · exact h.exists_apply_of_mem_slides hover haction hm
  · obtain ⟨p, rfl, hp, hfree, hhand⟩ := of_mem_placements h.toConsistent hm
    have hput : pos.release.put p = .ok (pos.release.start.placeMan p) :=
      put_of_placing hphase rfl hp hfree hhand
    exact ⟨_, (apply_place_iff hp).2 ⟨_, hput, rfl⟩⟩

/-- A listed move has a code of its own and goes somewhere. -/
theorem isProper_of_mem_legalMoves (h : pos.Sound) (hover : pos.state.phase ≠ .finished)
    (hm : m ∈ pos.legalMoves) : m.isProper = true := by
  rcases h.mem_legalMoves hover hm with ⟨hturned, haction, hm⟩ | ⟨_, hm⟩ | ⟨_, hm⟩
  · obtain ⟨p, hp, rfl⟩ := (mem_removals_iff h.toConsistent hturned haction).1 hm
    exact Move.isProper_remove hp.onBoard
  · obtain ⟨a, b, rfl, hb, hslide, _⟩ := h.of_mem_slides hover hm
    have hne : a ≠ b := by
      rintro rfl
      have hman := hslide.man
      rw [hslide.free] at hman
      exact Side.man_ne_empty _ hman.symm
    exact Move.isProper_slide (h.onBoard_of_man hslide.man) hb hne
  · obtain ⟨p, rfl, hp, _, _⟩ := of_mem_placements h.toConsistent hm
    exact Move.isProper_place hp

end Sound

/-- Every listed move of a reachable position that is not over is accepted, and saves exactly the
state before it. -/
theorem reachable_accepts_legalMoves {rule : Rule} (h : Reachable rule pos)
    (hover : pos.state.phase ≠ .finished) {m : Move} (hm : m ∈ pos.legalMoves)
    (saved : List State) : ∃ next, pos.apply m = .ok next ∧
      pos.makeMove saved m = .ok (next, pos.state :: saved) := by
  obtain ⟨next, hnext⟩ := h.sound.exists_apply hover hm
  exact ⟨next, hnext, map_eq_ok_iff.2 ⟨next, hnext, rfl⟩⟩

/-- Nine Men's Morris when White has closed a mill on the inner ring. -/
def millClosed : Position :=
  (ofVariant (.ofRule {})).performAll [.put 8, .put 24, .put 9, .put 26, .put 15]

/-- The case of a removal after a mill. -/
theorem reachable_accepts_removal :
    Reachable {} millClosed ∧ millClosed.state.phase ≠ .finished ∧
      Move.remove 24 ∈ millClosed.legalMoves ∧
      ∃ next, millClosed.apply (.remove 24) = .ok next ∧
        millClosed.makeMove [] (.remove 24) = .ok (next, [millClosed.state]) := by
  have hreach : Reachable {} millClosed := (Reachable.begin rfl).performAll _
  have hover : millClosed.state.phase ≠ .finished := by decide +kernel
  have hlisted : Move.remove 24 ∈ millClosed.legalMoves := by decide +kernel
  exact ⟨hreach, hover, hlisted, reachable_accepts_legalMoves hreach hover hlisted []⟩

end Position

end Morris
