import Mathlib.Algebra.Order.BigOperators.Group.List
import Mathlib.Algebra.Order.Group.Nat
import Mathlib.Data.List.ProdSigma
import Morris.Proofs.Faced
import Morris.Proofs.Hashed
import Morris.Proofs.Ranked

/-!
# How many moves are listed

A side that places or slides along lines has few moves: a placement for every empty point at most,
and up to four slides for every man. A side whose men fly has a move for every pair of a man and an
empty point, with one exception at most, the flight back into the mill that was closed last
(`Position.length_slides_of_canFly`). So the longest lists are those of a side that flies with many
men. Main statement: `playedBy_length_legalMoves`, which says when a list of moves outgrows the room
that is meant for it, and by how much at most. `exists_length_legalMoves_eq` is a game in which the
bound is met.
-/

set_option autoImplicit false

namespace Morris.Position

variable {pos : Position} {admits : Move → Prop} {rule : Rule}

/-! ## Points along the order -/

theorem Consistent.countP_order (h : pos.Consistent) (f : Point → Bool) :
    pos.variant.order.countP f = Point.all.countP f :=
  (h.order.trans (Board.order_perm_all _)).countP_eq f

theorem Consistent.length_men (h : pos.Consistent) (c : Side) :
    (pos.variant.order.reverse.filter fun p => pos.contentAt p == c.man).length =
      pos.state.onBoard.get c := by
  rw [← List.countP_eq_length_filter, List.countP_reverse, h.countP_order, h.count c]

theorem Consistent.length_empty (h : pos.Consistent) :
    (pos.variant.order.filter fun p => pos.contentAt p == .empty).length = pos.vacancies := by
  rw [← List.countP_eq_length_filter, h.countP_order]
  rfl

/-- Men and empty points share the board. -/
theorem Consistent.men_add_vacancies_le (h : pos.Consistent) (c : Side) :
    pos.state.onBoard.get c + pos.state.onBoard.get c.other + pos.vacancies ≤ 24 := by
  have hcensus := h.census
  rw [totalOnBoard] at hcensus
  cases c <;> simp only [PerSide.get, Side.other] <;> omega

/-! ## Placements, removals and slides along lines -/

theorem Consistent.length_placements_le (h : pos.Consistent) :
    pos.placements.length ≤ pos.vacancies := by
  simp only [placements]
  split
  · exact Nat.zero_le _
  · rw [List.length_map, h.length_empty]

theorem Consistent.length_removals_le (h : pos.Consistent) :
    pos.removals.length ≤ pos.state.onBoard.get pos.removalTarget := by
  have hle := (removals_sublist pos).length_le
  rwa [List.length_map, h.length_men] at hle

/-- Along lines a man goes to one of at most four neighbours. -/
theorem Consistent.length_slides_le (h : pos.Consistent)
    (hwalks : pos.canFly pos.state.side = false) :
    pos.slides.length ≤ 4 * pos.state.onBoard.get pos.state.side := by
  have htargets : ∀ a, (pos.slideTargets a).length ≤ 4 := by
    intro a
    rw [slideTargets, hwalks, if_neg Bool.false_ne_true]
    exact Nat.le_trans (List.length_filter_le _ _) (Board.neighbours_spec _ a).1
  simp only [slides]
  split
  · exact Nat.zero_le _
  · rw [List.length_flatMap, ← h.length_men pos.state.side, Nat.mul_comm]
    refine Nat.le_trans (List.sum_le_card_nsmul _ 4 fun n hn => ?_) ?_
    · obtain ⟨a, _, rfl⟩ := List.mem_map.1 hn
      rw [List.length_map]
      exact htargets a
    · rw [List.length_map]
      exact Nat.le_refl _

/-! ## Flights -/

/-- Pairs of a man of the side to move and an empty point, man by man along the order. -/
def flights (pos : Position) : List (Point × Point) :=
  (pos.variant.order.reverse.filter fun a => pos.contentAt a == pos.state.side.man) ×ˢ
    (pos.variant.order.filter fun b => pos.contentAt b == .empty)

theorem Consistent.length_flights (h : pos.Consistent) :
    pos.flights.length = pos.state.onBoard.get pos.state.side * pos.vacancies := by
  rw [flights, List.length_product, h.length_men, h.length_empty]

theorem Consistent.nodup_flights (h : pos.Consistent) : pos.flights.Nodup :=
  ((List.nodup_reverse.2 h.nodup_order).filter _).product (h.nodup_order.filter _)

/-- Only the last slide that closed a mill can be barred from being taken back. -/
theorem lastMill_of_returnsToMill {a b : Point} (h : pos.returnsToMill a b = true) :
    pos.state.lastMill.get pos.state.side = some (b, a) := by
  simp only [returnsToMill] at h
  split at h
  · rename_i hcond
    rw [Bool.and_eq_true, beq_iff_eq] at hcond
    exact hcond.2
  · cases h

/-- At most one flight is barred. -/
theorem Consistent.countP_returnsToMill_le (h : pos.Consistent) :
    (pos.flights.countP fun f => pos.returnsToMill f.1 f.2) ≤ 1 := by
  cases hlast : pos.state.lastMill.get pos.state.side with
  | none =>
      rw [List.countP_eq_zero.2]
      · exact Nat.zero_le 1
      · intro f _ hback
        cases hlast.symm.trans (lastMill_of_returnsToMill hback)
  | some l =>
      refine Nat.le_trans (List.countP_mono_left fun f _ hback => ?_)
        (List.nodup_iff_count_le_one.1 h.nodup_flights (l.2, l.1))
      have heq := hlast.symm.trans (lastMill_of_returnsToMill hback)
      cases heq
      exact beq_self_eq_true _

/-- The side to move may slide, and its men fly. -/
structure Airborne (pos : Position) : Prop where
  phase : pos.state.phase = .moving ∨
    (pos.state.phase = .placing ∧ pos.rule.mayMoveWhilePlacing = true)
  action : pos.state.action ≠ .remove
  flies : pos.canFly pos.state.side = true

theorem canFly_iff (pos : Position) (c : Side) : pos.canFly c = true ↔
    pos.rule.mayFly = true ∧ pos.state.onBoard.get c ≤ pos.rule.flyCount ∧
      pos.state.inHand.get c = 0 := by
  rw [canFly, Bool.and_eq_true, Bool.and_eq_true, decide_eq_true_iff, beq_iff_eq, and_assoc]

/-- The slides of a side whose men fly are the flights that are not barred. -/
theorem Airborne.slides_eq (h : pos.Airborne) :
    pos.slides = (pos.flights.filter fun f => !pos.returnsToMill f.1 f.2).map
      fun f => Move.slide f.1 f.2 := by
  have hallowed : ¬ ((pos.state.phase == .ready || pos.state.phase == .placing)
      && !pos.rule.mayMoveWhilePlacing) = true := by
    rcases h.phase with hmoving | ⟨hplacing, hmay⟩
    · simp [hmoving]
    · simp [hmay]
  have htargets : ∀ a, pos.slideTargets a =
      (pos.variant.order.filter fun b => pos.contentAt b == .empty).filter fun b =>
        !pos.returnsToMill a b := by
    intro a
    rw [slideTargets, h.flies, if_pos rfl, List.filter_filter]
    exact List.filter_congr fun b _ => Bool.and_comm _ _
  -- both sides are the same list of pairs, once built by a product and once by nested lists
  simp only [slides, if_neg hallowed, flights, SProd.sprod, List.product, List.filter_flatMap,
    List.map_flatMap, List.filter_map, List.map_map, htargets]
  rfl

/-- A side whose men fly has nothing to place. -/
theorem Airborne.legalMoves_eq (h : pos.Airborne) : pos.legalMoves = pos.slides := by
  have hnone : pos.placements = [] := if_pos ((canFly_iff pos _).1 h.flies).2.2
  rw [legalMoves_of_not_remove (goes_of_sliding h.phase) h.action, hnone, List.nil_append, ite_self]

theorem Airborne.length_legalMoves (h : pos.Airborne) (hcons : pos.Consistent) :
    pos.legalMoves.length ≤ pos.state.onBoard.get pos.state.side * pos.vacancies ∧
      pos.state.onBoard.get pos.state.side * pos.vacancies ≤ pos.legalMoves.length + 1 := by
  have hsplit := List.length_eq_countP_add_countP (fun f : Point × Point =>
    pos.returnsToMill f.1 f.2) (l := pos.flights)
  have hbarred := hcons.countP_returnsToMill_le
  have hlength : pos.legalMoves.length =
      pos.flights.countP fun f => !pos.returnsToMill f.1 f.2 := by
    rw [h.legalMoves_eq, h.slides_eq, List.length_map, List.countP_eq_length_filter]
  rw [← hcons.length_flights]
  simp only [Bool.not_eq_true, Bool.decide_eq_false] at hsplit
  omega

/-! ## All moves -/

theorem legalMoves_of_finished (hover : pos.state.phase = .finished)
    (haction : pos.state.action ≠ .remove) : pos.legalMoves = [] := by
  simp only [legalMoves, hover]

/-- Where no men fly there are at most sixty moves. -/
theorem Sound.length_legalMoves_le (h : pos.Sound) (hwalks : ¬ pos.Airborne) :
    pos.legalMoves.length ≤ 60 := by
  by_cases haction : pos.state.action = .remove
  · have hremovals := h.length_removals_le
    have htarget := h.onBoard_le pos.removalTarget
    rw [legalMoves_of_remove haction]
    omega
  by_cases hover : pos.state.phase = .finished
  · rw [legalMoves_of_finished hover haction]
    exact Nat.zero_le _
  have hlength : pos.legalMoves.length ≤ pos.placements.length + pos.slides.length := by
    rw [legalMoves_of_not_remove hover haction]
    split
    · exact Nat.le_add_left _ _
    · exact Nat.le_of_eq List.length_append
  cases hfly : pos.canFly pos.state.side with
  | false =>
      have hplacements := h.length_placements_le
      have hslides := h.length_slides_le hfly
      have hshared := h.men_add_vacancies_le pos.state.side
      have hmen := h.onBoard_le pos.state.side
      omega
  | true =>
      -- who may fly has nothing to place, and slides only where that is allowed
      have hplacements : pos.placements = [] := if_pos ((canFly_iff pos _).1 hfly).2.2
      have hslides : pos.slides = [] := by
        by_contra hsome
        obtain ⟨m, hm⟩ := List.exists_mem_of_ne_nil _ hsome
        obtain ⟨_, _, _, _, _, hphase⟩ := h.of_mem_slides hover hm
        exact hwalks ⟨hphase, haction, hfly⟩
      rw [hplacements, hslides] at hlength
      exact Nat.le_trans hlength (Nat.zero_le _)

/-! ## Games of accepted moves -/

/-- Number of moves that a list of moves has room for before it grows. -/
def roomForMoves : Nat := 72

/-- Up to twelve, more men have no fewer flights on a board with one man of the other side. -/
theorem mul_room_le {men most : Nat} (hmen : men ≤ most) (hmost : most ≤ 12) :
    men * (23 - men) ≤ most * (23 - most) := by
  have hall : ∀ most ≤ 12, ∀ men ≤ most, men * (23 - men) ≤ most * (23 - most) := by decide
  exact hall most hmost men hmen

theorem PlayedBy.length_flights_le (h : PlayedBy admits rule pos) (hairborne : pos.Airborne) :
    pos.state.onBoard.get pos.state.side * pos.vacancies ≤
      rule.flyCount * (23 - rule.flyCount) := by
  have hgoes := goes_of_sliding hairborne.phase
  have hshared := h.sound.men_add_vacancies_le pos.state.side
  have hvalid := (Rule.valid_iff _).1 h.sound.valid
  obtain ⟨_, hmost, _⟩ := (canFly_iff pos _).1 hairborne.flies
  rw [h.rule_eq] at hvalid hmost
  rcases h.met hgoes hairborne.action hairborne.flies with hnone | hmet
  · rw [hnone, Nat.zero_mul]
    exact Nat.zero_le _
  · calc pos.state.onBoard.get pos.state.side * pos.vacancies
        ≤ pos.state.onBoard.get pos.state.side * (23 - pos.state.onBoard.get pos.state.side) :=
          Nat.mul_le_mul_left _ (by omega)
      _ ≤ rule.flyCount * (23 - rule.flyCount) := mul_room_le hmost (by omega)

/-- Seventy-three is no product of numbers of men and empty points. -/
theorem Consistent.length_flights_ne (h : pos.Consistent) (c : Side) :
    pos.state.onBoard.get c * pos.vacancies ≠ roomForMoves + 1 := by
  have hall : ∀ men ≤ 12, ∀ vacant ≤ 24, men * vacant ≠ roomForMoves + 1 := by decide
  have hmen := h.onBoard_le c
  have hshared := h.men_add_vacancies_le c
  exact hall _ (by omega) _ (by omega)

/-- How many legal moves a position of a game of accepted moves has. A list of moves outgrows its
room if and only if the men of the side to move fly and the pairs of a man and an empty point are
more than it has room for. Where no men may fly there are at most sixty moves. In general there are
at most as many as men that may fly have with one man against them: sixty again for three men, but
more than there is room for with four, and 132 with twelve. -/
theorem playedBy_length_legalMoves (h : PlayedBy admits rule pos) :
    (roomForMoves < pos.legalMoves.length ↔ pos.Airborne ∧
        roomForMoves < pos.state.onBoard.get pos.state.side * pos.vacancies) ∧
      (rule.mayFly = false → pos.legalMoves.length ≤ 60) ∧
      pos.legalMoves.length ≤ rule.flyCount * (23 - rule.flyCount) := by
  have hcons := h.sound.toConsistent
  have hfew := h.sound.length_legalMoves_le
  refine ⟨⟨fun hmore => ?_, fun ⟨hairborne, hmore⟩ => ?_⟩, fun hwalks => ?_, ?_⟩
  · have hairborne : pos.Airborne := by
      by_contra hnot
      have hsixty := hfew hnot
      rw [roomForMoves] at hmore
      omega
    exact ⟨hairborne, Nat.lt_of_lt_of_le hmore (hairborne.length_legalMoves hcons).1⟩
  · -- one flight may be barred, and there is not just one too many
    have hlength := (hairborne.length_legalMoves hcons).2
    have hne := hcons.length_flights_ne pos.state.side
    omega
  · apply hfew
    intro hairborne
    have hfly := ((canFly_iff pos _).1 hairborne.flies).1
    rw [h.rule_eq, hwalks] at hfly
    cases hfly
  -- a side that does not fly has 60 moves at most, which is the value of the bound at its least
  · by_cases hairborne : pos.Airborne
    · exact Nat.le_trans (hairborne.length_legalMoves hcons).1 (h.length_flights_le hairborne)
    · have hvalid := (Rule.valid_iff _).1 h.sound.valid
      rw [h.rule_eq] at hvalid
      have hthree : 3 * (23 - 3) ≤ rule.flyCount * (23 - rule.flyCount) :=
        mul_room_le hvalid.2.1.1 (by omega)
      exact Nat.le_trans (hfew hairborne) hthree

/-! ## Long lists -/

/-- Men that all may fly, under a rule that lets a side slide while it has men to place. -/
def hovering (men : Nat) : Rule :=
  { pieceCount := men, flyCount := men, mayMoveWhilePlacing := true }

/-- White places its men without closing a mill, and Black goes to and fro with its first one. -/
def spreadOut (men : Nat) : List Move :=
  let points := [8, 10, 12, 14, 16, 18, 20, 22, 9, 13, 17, 21]
  let replies := .place 24 :: (List.replicate 6 [Move.slide 24 25, .slide 25 24]).flatten
  ((points.take men).zip replies).flatMap fun turn => [.place turn.1, turn.2]

/-- The bound is reached for any number of men that may fly. -/
theorem exists_length_legalMoves_eq {men : Nat} (hthree : 3 ≤ men) (htwelve : men ≤ 12) :
    ∃ pos, PlayedBy Move.OnBoard (hovering men) pos ∧
      pos.legalMoves.length = men * (23 - men) := by
  have hall : ∀ men ≤ 12, 3 ≤ men → (hovering men).Valid ∧ (∀ m ∈ spreadOut men, m.OnBoard) ∧
      ((ofVariant (.ofRule (hovering men))).applyAll? (spreadOut men)).any
        (fun pos => decide (pos.legalMoves.length = men * (23 - men))) = true := by
    decide +kernel
  obtain ⟨hvalid, honBoard, hrun⟩ := hall men htwelve hthree
  obtain ⟨pos, hpos, hlength⟩ := (Option.any_eq_true _ _).1 hrun
  have hbegin : ofRule (hovering men) = .ok (ofVariant (.ofRule (hovering men))) := by
    rw [ofRule, Variant.ofRule?, show (hovering men).fault? = none from hvalid]
    rfl
  exact ⟨pos, (PlayedBy.begin hbegin).applyAll honBoard hpos, of_decide_eq_true hlength⟩

/-- Twelve flying men against one have 132 moves. -/
theorem playedBy_length_legalMoves_twelve : ∃ pos, PlayedBy Move.OnBoard (hovering 12) pos ∧
    pos.Airborne ∧ pos.legalMoves.length = 132 ∧ pos.legalMoves.length ≤ 12 * (23 - 12) := by
  obtain ⟨pos, hplayed, hlength⟩ := exists_length_legalMoves_eq (by decide) (Nat.le_refl 12)
  obtain ⟨hiff, _, hmost⟩ := playedBy_length_legalMoves hplayed
  have hmore : roomForMoves < pos.legalMoves.length := by
    rw [hlength]
    decide
  exact ⟨pos, hplayed, (hiff.1 hmore).1, hlength, hmost⟩

/-- Five men a side, who all may fly. -/
def fiveFlying : Rule := { pieceCount := 5, flyCount := 5 }

/-- White closes a mill while the men are placed, and has five against four when it is to fly. -/
def fiveAgainstFour : List Move :=
  [.place 31, .place 8, .place 24, .place 10, .place 25, .remove 8, .place 12, .place 18, .place 21,
    .place 29, .place 14]

/-- There may be more legal moves than a list of moves has room for. -/
theorem not_forall_length_legalMoves_le :
    ¬ ∀ (rule : Rule) (pos : Position), PlayedBy Move.OnBoard rule pos →
      pos.legalMoves.length ≤ roomForMoves := by
  intro hall
  have hrun : ((ofVariant (.ofRule fiveFlying)).applyAll? fiveAgainstFour).any
      (fun pos => decide (pos.legalMoves.length = 75)) = true := by
    decide +kernel
  obtain ⟨pos, hpos, hlength⟩ := (Option.any_eq_true _ _).1 hrun
  have hplayed : PlayedBy Move.OnBoard fiveFlying pos := (PlayedBy.begin rfl).applyAll
    (show ∀ m ∈ fiveAgainstFour, m.OnBoard by decide +kernel) hpos
  have hfew := hall fiveFlying pos hplayed
  rw [of_decide_eq_true hlength] at hfew
  exact absurd hfew (by decide)

end Morris.Position
