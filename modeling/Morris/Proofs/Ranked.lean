import Mathlib.Data.List.Nodup
import Morris.Proofs.Complete
import Morris.Proofs.Search.Tree

/-!
# Ranking reorders the legal moves

The list of ranked moves holds the legal moves, every one of them once, by falling score and with
equal scores in the order of the list of legal moves. The sort is stable, so what has to be shown is
that the remembered move leads: no move has two entries (`Consistent.nodup_legalMoves`), and no
score of a move that is not the remembered one comes near that of the remembered one (`scoreOf_lt`),
because at most three lines and at most four neighbours meet in a point. Main statement:
`reachable_rankedMoves`.
-/

set_option autoImplicit false

namespace Morris

/-! ## The board around a point -/

namespace Board

/-- Beyond the live points there are neither neighbours nor lines. -/
theorem surroundings_of_le (diagonals : Bool) {p : Point} (hp : 32 ≤ p) :
    surroundings diagonals p = ⟨[], .empty, []⟩ := by
  have hsize : (if diagonals then diagonalTable else plainTable).size = 32 := by
    cases diagonals <;> rfl
  rw [surroundings, Array.getElem?_eq_none (hsize ▸ hp)]

/-- A property of what surrounds a point holds everywhere if it holds up to the last live point and
of a point without neighbours and lines. -/
theorem surroundings_induction {P : Surroundings → Prop} (hnone : P ⟨[], .empty, []⟩)
    {diagonals : Bool} (h : ∀ p ∈ List.range 32, P (surroundings diagonals p)) (p : Point) :
    P (surroundings diagonals p) := by
  by_cases hp : p < 32
  · exact h p (List.mem_range.2 hp)
  · rw [surroundings_of_le diagonals (Nat.not_lt.1 hp)]
    exact hnone

/-- At most three lines meet in a point. -/
theorem length_partners_le (diagonals : Bool) (p : Point) : (partners diagonals p).length ≤ 3 := by
  have hall : ∀ diagonals : Bool, ∀ p ∈ List.range 32,
      (surroundings diagonals p).partners.length ≤ 3 := by
    decide +kernel
  exact @surroundings_induction (fun s => s.partners.length ≤ 3) (by decide) diagonals
    (hall diagonals) p

/-- A point has at most four neighbours, and none of them twice. -/
theorem neighbours_spec (diagonals : Bool) (p : Point) :
    (neighbours diagonals p).length ≤ 4 ∧ (neighbours diagonals p).Nodup := by
  have hall : ∀ diagonals : Bool, ∀ p ∈ List.range 32,
      (surroundings diagonals p).neighbours.length ≤ 4 ∧
        (surroundings diagonals p).neighbours.Nodup := by
    decide +kernel
  exact @surroundings_induction (fun s => s.neighbours.length ≤ 4 ∧ s.neighbours.Nodup) (by decide)
    diagonals (hall diagonals) p

theorem nodup_order (diagonals : Bool) : (order diagonals).Nodup := by
  cases diagonals <;> decide +kernel

end Board

namespace Position

variable {pos : Position} {remembered m : Move}

/-! ## Each move is listed once -/

theorem Consistent.nodup_order (h : pos.Consistent) : pos.variant.order.Nodup :=
  h.order.nodup_iff.2 (Board.nodup_order _)

/-- Moves made from different live points are different. -/
theorem nodup_map_of_live {ps : List Point} {move : Point → Move} (hps : ps.Nodup)
    (hlive : ∀ p ∈ ps, Point.onBoard p = true)
    (htarget : ∀ p, Point.onBoard p = true → (move p).target = p) : (ps.map move).Nodup := by
  refine hps.map_on fun p hp q hq heq => ?_
  rw [← htarget p (hlive p hp), heq, htarget q (hlive q hq)]

theorem Consistent.nodup_placements (h : pos.Consistent) : pos.placements.Nodup := by
  simp only [placements]
  split
  · exact List.nodup_nil
  · exact nodup_map_of_live (h.nodup_order.filter _)
      (fun p hp => (h.mem_order p).1 (List.mem_of_mem_filter hp)) fun p hp => (Move.place_spec hp).2

/-- Only men of the side that loses one are removed, in the order of the list of points. -/
theorem removals_sublist (pos : Position) :
    pos.removals.Sublist ((pos.variant.order.reverse.filter fun p =>
      pos.contentAt p == pos.removalTarget.man).map Move.remove) := by
  simp only [removals]
  apply List.Sublist.map
  split
  · exact List.filter_sublist
  · split
    · exact List.Sublist.refl _
    · exact List.filter_sublist

theorem Consistent.nodup_removals (h : pos.Consistent) : pos.removals.Nodup := by
  refine (removals_sublist pos).nodup ?_
  exact nodup_map_of_live ((List.nodup_reverse.2 h.nodup_order).filter _)
    (fun p hp => ((h.mem_targets p).1 hp).1) fun p hp => (Move.remove_spec hp).2

theorem Consistent.nodup_slideTargets (h : pos.Consistent) (a : Point) :
    (pos.slideTargets a).Nodup := by
  simp only [slideTargets]
  split
  · exact h.nodup_order.filter _
  · exact (Board.neighbours_spec _ a).2.filter _

theorem Consistent.nodup_slides (h : pos.Consistent) : pos.slides.Nodup := by
  simp only [slides]
  split
  · exact List.nodup_nil
  · have hmen : ∀ a, a ∈ pos.variant.order.reverse.filter (fun a =>
        pos.contentAt a == pos.state.side.man) → pos.contentAt a = pos.state.side.man := by
      intro a ha
      simpa using (List.mem_filter.1 ha).2
    have hspec : ∀ {a b}, pos.contentAt a = pos.state.side.man → b ∈ pos.slideTargets a →
        (Move.slide a b).origin = a ∧ (Move.slide a b).target = b := fun ha hb =>
      (Move.slide_spec (h.onBoard_of_man ha) (slidable_of_mem_slideTargets h ha hb).1).2
    refine List.nodup_flatMap.2 ⟨fun a ha => ?_, ?_⟩
    · refine (h.nodup_slideTargets a).map_on fun b hb b' hb' heq => ?_
      rw [← (hspec (hmen a ha) hb).2, heq, (hspec (hmen a ha) hb').2]
    · -- slides of different men start from different points
      refine ((List.nodup_reverse.2 h.nodup_order).filter _).imp_of_mem ?_
      intro a a' ha ha' hne m hm hm'
      obtain ⟨b, hb, rfl⟩ := List.mem_map.1 hm
      obtain ⟨b', hb', heq⟩ := List.mem_map.1 hm'
      exact hne (by rw [← (hspec (hmen a ha) hb).1, ← heq, (hspec (hmen a' ha') hb').1])

/-- No legal move is listed twice. -/
theorem Consistent.nodup_legalMoves (h : pos.Consistent) : pos.legalMoves.Nodup := by
  -- a placement and a slide differ in kind
  have hapart : pos.placements.Disjoint pos.slides := by
    intro m hplace hslide
    obtain ⟨p, rfl, hp, _⟩ := of_mem_placements h hplace
    obtain ⟨a, b, heq, hb, hslides, _⟩ := of_mem_slides h hslide
    have hkind := (Move.slide_spec (h.onBoard_of_man hslides.man) hb).1
    rw [heq, (Move.place_spec hp).1] at hkind
    cases hkind
  simp only [legalMoves]
  split
  · exact h.nodup_removals
  · exact h.nodup_placements.append h.nodup_slides hapart
  · exact h.nodup_placements.append h.nodup_slides hapart
  · exact h.nodup_slides
  · exact List.nodup_nil

/-! ## Scores -/

/-- No side has more mills through a point than lines meet there. -/
theorem potentialMills_le (pos : Position) (p : Point) (c : Option Side) (vacated : Point) :
    pos.potentialMills p c vacated ≤ 3 := by
  have hlines := Board.length_partners_le pos.rule.hasDiagonals p
  have hcount : ∀ test : Bitboard → Bool,
      (Board.partners pos.rule.hasDiagonals p).countP test ≤ 3 :=
    fun test => Nat.le_trans List.countP_le_length hlines
  simp only [potentialMills, linesWithin]
  split
  · split
    · exact hcount _
    · exact hcount _
  · split
    · exact hcount _
    · exact Nat.zero_le 3

theorem countP_neighbours_le (pos : Position) (p : Point) (test : Point → Bool) :
    (pos.neighbours p).countP test ≤ 4 :=
  Nat.le_trans List.countP_le_length (Board.neighbours_spec _ p).1

/-- A removal gets one point for a mill that it opens and one for every own or free neighbour. -/
theorem removalScore_le (pos : Position) (p : Point) {closed : Nat} :
    pos.removalScore p closed ≤ 9 := by
  have hown : pos.ownAround p ≤ 4 := pos.countP_neighbours_le p _
  have hfree : pos.freeAround p ≤ 4 := pos.countP_neighbours_le p _
  simp only [removalScore]
  split <;> split <;> omega

/-- The best arrival closes three mills. -/
theorem arrivalScore_le (pos : Position) (p : Point) {closed : Nat} (hclosed : closed ≤ 3) :
    pos.arrivalScore p closed ≤ 3 * closingScore := by
  have hblocked := pos.potentialMills_le p (some pos.state.side.other) 0
  have hblocking : blockingScore * (pos.potentialMills p (some pos.state.side.other) 0 : Int) ≤
      3 * closingScore := by
    simp only [blockingScore, closingScore]
    omega
  have hnone : 0 ≤ 3 * closingScore := by decide
  simp only [arrivalScore]
  -- the number of foes that a point needs to be worth blocking decides the branch only
  generalize (if p % 2 = 0 then 3 else 2) = hemmed
  split
  · simp only [closingScore]
    omega
  · split
    · exact hblocking
    · split
      · exact hblocking
      · exact hnone

/-- No other move is rated like the remembered one. -/
theorem scoreOf_lt (pos : Position) (h : m ≠ remembered) :
    pos.scoreOf remembered m < rememberedScore := by
  have hclosed := pos.potentialMills_le m.target (some pos.state.side) m.origin
  have harrival := pos.arrivalScore_le m.target hclosed
  have hremoval := @removalScore_le pos m.target
    (pos.potentialMills m.target (some pos.state.side) m.origin)
  simp only [closingScore] at harrival
  simp only [scoreOf, if_neg h, rememberedScore, starScore]
  split
  · omega
  · omega
  · split <;> omega

theorem scoreOf_remembered (pos : Position) (remembered : Move) :
    pos.scoreOf remembered remembered = rememberedScore := if_pos rfl

/-! ## The list -/

/-- The list of ranked moves before it is sorted. -/
def scoredMoves (pos : Position) (remembered : Move) : List RankedMove :=
  pos.legalMoves.map fun m => ⟨m, pos.scoreOf remembered m⟩

theorem rankedMoves_perm_scoredMoves (pos : Position) (remembered : Move) :
    (pos.rankedMoves remembered).Perm (pos.scoredMoves remembered) :=
  List.mergeSort_perm _ _

theorem score_of_mem_rankedMoves {r : RankedMove} (hr : r ∈ pos.rankedMoves remembered) :
    r.score = pos.scoreOf remembered r.move := by
  obtain ⟨m, _, rfl⟩ := List.mem_map.1 ((pos.rankedMoves_perm_scoredMoves remembered).mem_iff.1 hr)
  rfl

theorem score_trans (x y z : RankedMove) (hxy : decide (y.score ≤ x.score) = true)
    (hyz : decide (z.score ≤ y.score) = true) : decide (z.score ≤ x.score) = true := by
  rw [decide_eq_true_eq] at hxy hyz ⊢
  exact Int.le_trans hyz hxy

theorem score_total (x y : RankedMove) :
    (decide (y.score ≤ x.score) || decide (x.score ≤ y.score)) = true := by
  rw [Bool.or_eq_true, decide_eq_true_eq, decide_eq_true_eq]
  exact Int.le_total y.score x.score

theorem rankedMoves_sorted (pos : Position) (remembered : Move) :
    (pos.rankedMoves remembered).Pairwise fun x y => y.score ≤ x.score := by
  have hsorted := List.pairwise_mergeSort score_trans score_total (pos.scoredMoves remembered)
  exact hsorted.imp of_decide_eq_true

/-- Moves of equal score keep their order. -/
theorem filter_rankedMoves (pos : Position) (remembered : Move) (score : Int) :
    (pos.rankedMoves remembered).filter (fun r => r.score == score) =
      (pos.scoredMoves remembered).filter fun r => r.score == score := by
  have hperm := (pos.rankedMoves_perm_scoredMoves remembered).filter fun r => r.score == score
  have hequal : ((pos.scoredMoves remembered).filter fun r => r.score == score).Pairwise
      fun x y => decide (y.score ≤ x.score) = true := by
    refine List.pairwise_of_forall_mem_list fun x hx y hy => ?_
    have hxs := (List.mem_filter.1 hx).2
    have hys := (List.mem_filter.1 hy).2
    rw [beq_iff_eq] at hxs hys
    rw [decide_eq_true_eq, hxs, hys]
  -- the sort leaves a part of the list that is in order as it is
  have hkept : ((pos.scoredMoves remembered).filter fun r => r.score == score).Sublist
      (pos.rankedMoves remembered) :=
    List.sublist_mergeSort score_trans score_total hequal List.filter_sublist
  have hinside := hkept.filter fun r => r.score == score
  rw [List.filter_filter] at hinside
  simp only [Bool.and_self] at hinside
  exact (hinside.eq_of_length hperm.length_eq.symm).symm

/-- The moves of one score, in the order in which they are listed. -/
theorem filter_rankedMoves_move (pos : Position) (remembered : Move) (score : Int) :
    ((pos.rankedMoves remembered).filter fun r => r.score == score).map RankedMove.move =
      pos.legalMoves.filter fun m => pos.scoreOf remembered m == score := by
  rw [filter_rankedMoves, scoredMoves, List.filter_map, List.map_map]
  exact List.map_id _

/-- A remembered move that is legal leads, and no other move has its score. -/
theorem Consistent.rankedMoves_of_mem (h : pos.Consistent) (hm : remembered ∈ pos.legalMoves) :
    ∃ rest, pos.rankedMoves remembered = ⟨remembered, rememberedScore⟩ :: rest ∧
      ∀ r ∈ rest, r.score < rememberedScore := by
  have hscore : ∀ r ∈ pos.rankedMoves remembered, r.score = pos.scoreOf remembered r.move :=
    fun r hr => score_of_mem_rankedMoves hr
  have hnodup := (pos.map_move_rankedMoves_perm remembered).nodup_iff.2 h.nodup_legalMoves
  have hsorted := pos.rankedMoves_sorted remembered
  obtain ⟨own, hown, hmove⟩ := exists_ranked hm remembered
  generalize pos.rankedMoves remembered = ranked at hscore hnodup hsorted hown ⊢
  obtain ⟨first, rest, rfl⟩ := List.exists_cons_of_ne_nil (List.ne_nil_of_mem hown)
  -- the first score is not below that of the remembered move, so the first move is that one
  have hfirst : first.move = remembered := by
    by_contra hne
    have hlow := pos.scoreOf_lt hne
    rw [← hscore first List.mem_cons_self] at hlow
    have hhigh := hscore own hown
    rw [hmove, scoreOf_remembered] at hhigh
    rcases List.mem_cons.1 hown with rfl | hrest
    · omega
    · have hle := (List.pairwise_cons.1 hsorted).1 own hrest
      omega
  refine ⟨rest, ?_, fun r hr => ?_⟩
  · have hlead := hscore first List.mem_cons_self
    rw [hfirst, scoreOf_remembered] at hlead
    rw [← hfirst, ← hlead]
  · have hother : r.move ≠ remembered := by
      rintro heq
      rw [List.map_cons, List.nodup_cons, hfirst, ← heq] at hnodup
      exact hnodup.1 (List.mem_map_of_mem hr)
    rw [hscore r (List.mem_cons_of_mem first hr)]
    exact pos.scoreOf_lt hother

/-- In every reachable position, whatever move is remembered: the ranked moves are the legal moves
in another order, each of them once, with the scores of the moves, by falling score and with the
moves of equal score as they are listed. A remembered move that is legal comes first, with a score
above all others. -/
theorem reachable_rankedMoves {rule : Rule} (h : Reachable rule pos) (remembered : Move) :
    ((pos.rankedMoves remembered).map RankedMove.move).Perm pos.legalMoves ∧
      ((pos.rankedMoves remembered).map RankedMove.move).Nodup ∧
      (∀ r ∈ pos.rankedMoves remembered, r.score = pos.scoreOf remembered r.move) ∧
      ((pos.rankedMoves remembered).Pairwise fun x y => y.score ≤ x.score) ∧
      (∀ score, ((pos.rankedMoves remembered).filter fun r => r.score == score).map
          RankedMove.move =
        pos.legalMoves.filter fun m => pos.scoreOf remembered m == score) ∧
      (remembered ∈ pos.legalMoves →
        ∃ rest, pos.rankedMoves remembered = ⟨remembered, rememberedScore⟩ :: rest ∧
          ∀ r ∈ rest, r.score < rememberedScore) := by
  have hcons := h.sound.toConsistent
  have hperm := pos.map_move_rankedMoves_perm remembered
  exact ⟨hperm, hperm.nodup_iff.2 hcons.nodup_legalMoves, fun r hr => score_of_mem_rankedMoves hr,
    pos.rankedMoves_sorted remembered, pos.filter_rankedMoves_move remembered,
    hcons.rankedMoves_of_mem⟩

/-- Nine Men's Morris when White can close a mill on the inner ring. -/
def millOpen : Position :=
  (ofVariant (.ofRule {})).performAll [.put 15, .put 24, .put 8, .put 26]

/-- The case of a remembered placement that does nothing: it comes before the one that closes the
mill. -/
theorem reachable_rankedMoves_millOpen :
    Reachable {} millOpen ∧ Move.place 31 ∈ millOpen.legalMoves ∧
      millOpen.scoreOf (.place 31) (.place 9) = closingScore ∧
      ∃ rest, millOpen.rankedMoves (.place 31) = ⟨.place 31, rememberedScore⟩ :: rest ∧
        ∀ r ∈ rest, r.score < rememberedScore := by
  have hreach : Reachable {} millOpen := (Reachable.begin rfl).performAll _
  have hlegal : Move.place 31 ∈ millOpen.legalMoves := by decide +kernel
  have hcloses : millOpen.scoreOf (.place 31) (.place 9) = closingScore := by decide +kernel
  obtain ⟨_, _, _, _, _, hleads⟩ := reachable_rankedMoves hreach (.place 31)
  exact ⟨hreach, hlegal, hcloses, hleads hlegal⟩

end Position

end Morris
