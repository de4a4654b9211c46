import Morris.Proofs.Complete
import Mathlib.Data.List.Chain
import Mathlib.Tactic.ByContra

/-!
# Room to move

What a position needs in order to have a legal move, kind by kind. A placement needs a man in hand
and an empty point. A removal needs a man of the side that loses one, and a freeing removal one that
the remover touches (`Position.removals_ne_nil`). A side that slides must not be blocked; it then
has a slide even where repeated mills are restricted, because a slide that is barred goes to a point
that another man can reach as well (`Position.slides_ne_nil`).

The board is connected, so between the points of a set and the others there is a pair of neighbours
(`Board.exists_border`). Hence a side that is blocked touches the other side
(`Position.exists_touching`), and two sides cannot both be blocked while a point is empty
(`Position.not_isBlocked_both`).
-/

set_option autoImplicit false

namespace Morris

/-! ## The board -/

namespace Board

/-- A walk from neighbour to neighbour that comes to every live point. -/
def tour : List Point :=
  [9, 10, 11, 12, 13, 14, 15, 8, 16, 17, 18, 19, 20, 21, 22, 23, 16, 24, 25, 26, 27, 28, 29, 30, 31]

theorem tour_spec : (∀ p ∈ Point.all, p ∈ tour) ∧
    ∀ diagonals : Bool, tour.IsChain fun p q =>
      q ∈ neighbours diagonals p ∧ p ∈ neighbours diagonals q := by
  decide +kernel

/-- Between the points of a set and the others there is a pair of neighbours. -/
theorem exists_border (inside : Point → Prop) (diagonals : Bool) {a b : Point}
    (ha : Point.onBoard a = true) (hb : Point.onBoard b = true) (hin : inside a)
    (hout : ¬ inside b) :
    ∃ p q, q ∈ neighbours diagonals p ∧ p ∈ neighbours diagonals q ∧ inside p ∧ ¬ inside q := by
  by_contra hnone
  -- no step of the walk leaves the set or comes into it, so all points of the walk are alike
  have halike : ∀ p ∈ tour, (inside p ↔ inside 9) := by
    refine (tour_spec.2 diagonals).induction (fun p => inside p ↔ inside 9) tour ?_ fun _ => Iff.rfl
    rintro p q ⟨hpq, hqp⟩ hp
    rw [← hp]
    constructor
    · intro hq
      by_contra hnot
      exact hnone ⟨q, p, hqp, hpq, hq, hnot⟩
    · intro hin
      by_contra hnot
      exact hnone ⟨p, q, hpq, hqp, hin, hnot⟩
  have ha' := halike a (tour_spec.1 a ((Point.mem_all a).2 ha))
  have hb' := halike b (tour_spec.1 b ((Point.mem_all b).2 hb))
  exact hout (hb'.2 (ha'.1 hin))

/-- The two other points of a line through a point do not include it, make up a line with it, and
one of them is its neighbour. -/
theorem partners_spec {diagonals : Bool} {p : Point} (hp : Point.onBoard p = true) {pair : Bitboard}
    (hpair : pair ∈ partners diagonals p) :
    pair.contains p = false ∧ pair.insert p ∈ lines diagonals ∧
      ∃ q, pair.contains q = true ∧ p ∈ neighbours diagonals q := by
  have hall : ∀ diagonals : Bool, ∀ p ∈ Point.all, ∀ pair ∈ partners diagonals p,
      pair.contains p = false ∧ pair.insert p ∈ lines diagonals ∧
        ∃ q ∈ Point.all, pair.contains q = true ∧ p ∈ neighbours diagonals q := by
    decide +kernel
  obtain ⟨hnot, hline, q, _, hq⟩ := hall diagonals p ((Point.mem_all p).2 hp) pair hpair
  exact ⟨hnot, hline, q, hq⟩

end Board

namespace Position

variable {pos : Position} {c : Side}

/-! ## The census of the board -/

/-- Number of empty points. -/
def vacancies (pos : Position) : Nat := Point.all.countP fun p => pos.contentAt p == .empty

/-- No point is marked. -/
def Unmarked (pos : Position) : Prop := ∀ p, pos.contentAt p ≠ .marked

theorem sum_countP_content (f : Point → Content) (ps : List Point) :
    ps.countP (fun p => f p == .white) + ps.countP (fun p => f p == .black)
      + ps.countP (fun p => f p == .marked) + ps.countP (fun p => f p == .empty) = ps.length := by
  induction ps with
  | nil => rfl
  | cons p ps ih =>
      simp only [List.countP_cons, List.length_cons]
      cases f p <;> simp <;> omega

/-- Every live point holds a man or a mark or is empty. -/
theorem Consistent.census (h : pos.Consistent) :
    pos.totalOnBoard + Point.all.countP (fun p => pos.contentAt p == .marked) + pos.vacancies =
      24 := by
  have hsum := sum_countP_content pos.contentAt Point.all
  have hwhite := h.count .white
  have hblack := h.count .black
  simp only [PerSide.get, Side.man] at hwhite hblack
  rw [totalOnBoard, hwhite, hblack]
  exact hsum

theorem exists_empty_of_vacancies (h : 0 < pos.vacancies) :
    ∃ p, Point.onBoard p = true ∧ pos.contentAt p = .empty := by
  obtain ⟨p, hp, hempty⟩ := List.countP_pos_iff.1 h
  exact ⟨p, (Point.mem_all p).1 hp, by simpa using hempty⟩

theorem vacancies_pos_of_empty {p : Point} (hp : Point.onBoard p = true)
    (hempty : pos.contentAt p = .empty) : 0 < pos.vacancies :=
  List.countP_pos_iff.2 ⟨p, (Point.mem_all p).2 hp, by simpa using hempty⟩

theorem Consistent.vacancies_pos (h : pos.Consistent) (hunmarked : pos.Unmarked)
    (hmen : pos.totalOnBoard < 24) : 0 < pos.vacancies := by
  have hcensus := h.census
  have hmarks : Point.all.countP (fun p => pos.contentAt p == .marked) = 0 := by
    rw [List.countP_eq_zero]
    intro p _
    simpa using hunmarked p
  omega

theorem Consistent.exists_man (h : pos.Consistent) (hc : pos.state.onBoard.get c ≠ 0) :
    ∃ p, pos.contentAt p = c.man := by
  rw [h.count, Nat.ne_zero_iff_zero_lt, List.countP_pos_iff] at hc
  obtain ⟨p, _, hp⟩ := hc
  exact ⟨p, by simpa using hp⟩

theorem Consistent.onBoard_ne_zero (h : pos.Consistent) {p : Point}
    (hp : pos.contentAt p = c.man) : pos.state.onBoard.get c ≠ 0 := by
  rw [h.count, Nat.ne_zero_iff_zero_lt, List.countP_pos_iff]
  exact ⟨p, (Point.mem_all p).2 (h.onBoard_of_man hp), by simpa using hp⟩

/-! ## Blocked sides -/

/-- No man of a blocked side has an empty neighbour. -/
theorem Consistent.not_empty_of_isBlocked (h : pos.Consistent) (hblocked : pos.isBlocked c = true)
    {a b : Point} (ha : pos.contentAt a = c.man) (hb : b ∈ pos.neighbours a) :
    pos.contentAt b ≠ .empty := by
  intro hempty
  obtain ⟨hlive, hadjacent⟩ := Board.of_mem_neighbours (h.onBoard_of_man ha) hb
  simp only [isBlocked] at hblocked
  split_ifs at hblocked with hfull hfly
  · -- a full board blocks every side, but has no empty point
    have hcensus := h.census
    have hvacant := vacancies_pos_of_empty hlive hempty
    omega
  · have hman : a ∈ (pos.men c).points := (Bitboard.mem_points _ a).2 ((h.agrees.men c a).2 ha)
    have hout := Bitboard.isEmpty_iff.1 (List.all_eq_true.1 hblocked a hman) b
    rw [Bitboard.contains_inter, Bitboard.contains_compl] at hout
    have hfree : pos.occupied.contains b = false := by
      apply eq_false_of_ne_true
      intro hin
      exact (h.agrees.occupied b).1 hin hempty
    rw [hfree, show (Board.around pos.rule.hasDiagonals a).contains b = true from hadjacent] at hout
    simp [Point.lt_of_onBoard hlive] at hout

/-- A side that is not blocked is small enough to fly or has a man with an empty neighbour, and the
board is not full. -/
theorem Consistent.free_of_not_isBlocked (h : pos.Consistent) (hfree : pos.isBlocked c = false) :
    pos.totalOnBoard < 24 ∧
      ((pos.rule.mayFly = true ∧ pos.state.onBoard.get c ≤ pos.rule.flyCount) ∨
        ∃ a b, pos.contentAt a = c.man ∧ b ∈ pos.neighbours a ∧ Point.onBoard b = true ∧
          pos.contentAt b = .empty) := by
  simp only [isBlocked] at hfree
  split_ifs at hfree with hfull hfly
  · refine ⟨Nat.lt_of_not_le hfull, Or.inl ?_⟩
    simpa using hfly
  · refine ⟨Nat.lt_of_not_le hfull, Or.inr ?_⟩
    obtain ⟨a, ha, hnear⟩ := List.all_eq_false.1 hfree
    have hman := (h.agrees.men c a).1 ((Bitboard.mem_points _ a).1 ha)
    rw [Bitboard.isEmpty_iff, not_forall] at hnear
    obtain ⟨b, hb⟩ := hnear
    rw [Bitboard.contains_inter, Bitboard.contains_compl] at hb
    simp only [Bool.not_eq_false, Bool.and_eq_true, Bool.not_eq_true'] at hb
    obtain ⟨hadjacent, _, hout⟩ := hb
    have hb := Board.mem_neighbours (h.onBoard_of_man hman) hadjacent
    refine ⟨a, b, hman, hb, (Board.of_mem_neighbours (h.onBoard_of_man hman) hb).1, ?_⟩
    -- a point that is not empty is occupied
    by_contra hused
    have hin : pos.occupied.contains b = true := (h.agrees.occupied b).2 hused
    rw [hin] at hout
    cases hout

theorem content_cases (x : Content) (c : Side) :
    x = .empty ∨ x = .marked ∨ x = c.man ∨ x = c.other.man := by
  cases x <;> cases c <;> decide

/-- A blocked side touches a man of the other side, unless all points are its own. -/
theorem Consistent.exists_touching (h : pos.Consistent) (hunmarked : pos.Unmarked)
    (hblocked : pos.isBlocked c = true) (hc : pos.state.onBoard.get c ≠ 0) {b : Point}
    (hb : Point.onBoard b = true) (hother : pos.contentAt b ≠ c.man) :
    ∃ p, pos.contentAt p = c.other.man ∧ pos.touches p c.colour = true := by
  obtain ⟨a, ha⟩ := h.exists_man hc
  obtain ⟨p, q, hpq, hqp, hp, hq⟩ := Board.exists_border (fun p => pos.contentAt p = c.man)
    pos.rule.hasDiagonals (h.onBoard_of_man ha) hb ha hother
  have hman : pos.contentAt q = c.other.man := by
    rcases content_cases (pos.contentAt q) c with hempty | hmarked | hown | hman
    · exact absurd hempty (h.not_empty_of_isBlocked hblocked hp hpq)
    · exact absurd hmarked (hunmarked q)
    · exact absurd hown hq
    · exact hman
  refine ⟨q, hman, List.any_eq_true.2 ⟨p, hqp, ?_⟩⟩
  rw [colourAt, hp]
  cases c <;> rfl

/-- Two sides cannot both be blocked while there is an empty point. -/
theorem Consistent.not_isBlocked_other (h : pos.Consistent) (hunmarked : pos.Unmarked)
    (hmen : pos.totalOnBoard < 24) (hc : pos.state.onBoard.get c ≠ 0)
    (hblocked : pos.isBlocked c = true) : pos.isBlocked c.other = false := by
  obtain ⟨a, ha⟩ := h.exists_man hc
  obtain ⟨b, hb, hempty⟩ := exists_empty_of_vacancies (h.vacancies_pos hunmarked hmen)
  have hused : pos.contentAt a ≠ .empty := by
    rw [ha]
    exact Side.man_ne_empty c
  -- some point in use is next to an empty one, and the man on it is free
  obtain ⟨p, q, hpq, _, hp, hq⟩ :=
    Board.exists_border (fun p => pos.contentAt p ≠ .empty) pos.rule.hasDiagonals
      (h.onBoard_of_man ha) hb hused (not_not_intro hempty)
  rw [not_not] at hq
  apply eq_false_of_ne_true
  intro hother
  rcases content_cases (pos.contentAt p) c with hnone | hmarked | hown | hman
  · exact hp hnone
  · exact hunmarked p hmarked
  · exact h.not_empty_of_isBlocked hblocked hown hpq hq
  · exact h.not_empty_of_isBlocked hother hman hpq hq

/-! ## Removals -/

/-- A side that owes a removal has one if there is a man to take, and, where only men that it
touches may be taken, such a man. -/
theorem removals_ne_nil (h : pos.Consistent) (hturned : pos.Turned)
    (haction : pos.state.action = .remove) {p : Point}
    (hp : pos.contentAt p = pos.removalTarget.man)
    (htouch : pos.isFreeingRemoval = true → pos.state.takesOwn.get pos.state.side = true ∨
      ∃ q, pos.contentAt q = pos.removalTarget.man ∧
        pos.touches q pos.state.side.colour = true) : pos.removals ≠ [] := by
  have howes := hturned.owes.1 haction
  -- it is enough to find one man that may be removed
  suffices hremovable : ∃ q, pos.Removable q by
    obtain ⟨q, hq⟩ := hremovable
    exact List.ne_nil_of_mem ((mem_removals_iff h hturned haction).2 ⟨q, hq, rfl⟩)
  cases hfrees : pos.isFreeingRemoval with
  | true =>
      have hearned : pos.isFreeingRemoval ≠ false := by
        rw [hfrees]
        decide
      rcases htouch hfrees with hown | ⟨q, hq, hnear⟩
      · exact ⟨p, hturned.inProgress, haction, howes, h.onBoard_of_man hp, hp, fun _ => Or.inl hown,
          fun hnot => absurd hnot hearned⟩
      · exact ⟨q, hturned.inProgress, haction, howes, h.onBoard_of_man hq, hq,
          fun _ => Or.inr hnear, fun hnot => absurd hnot hearned⟩
  | false =>
      have hnot : pos.isFreeingRemoval ≠ true := by
        rw [hfrees]
        decide
      -- mills protect men only as long as one of the side stands in none
      cases hall : pos.allInMills pos.removalTarget with
      | true =>
          exact ⟨p, hturned.inProgress, haction, howes, h.onBoard_of_man hp, hp,
            fun hfreeing => absurd hfreeing hnot, fun _ => Or.inr (Or.inr hall)⟩
      | false =>
          obtain ⟨q, hq, hmills⟩ := List.all_eq_false.1 hall
          have hman := (h.agrees.men _ q).1 ((Bitboard.mem_points _ q).1 hq)
          refine ⟨q, hturned.inProgress, haction, howes, h.onBoard_of_man hman, hman,
            fun hfreeing => absurd hfreeing hnot, fun _ => Or.inr (Or.inl ?_)⟩
          simpa using hmills

/-! ## Slides -/

/-- The points of a line that a side would complete are covered by its other men. -/
theorem exists_partners_of_potentialMills {a b : Point}
    (hcloses : 0 < pos.potentialMills b (some c) a) :
    ∃ pair ∈ Board.partners pos.rule.hasDiagonals b, ((pos.men c).erase a).covers pair = true := by
  simp only [potentialMills] at hcloses
  split at hcloses
  · obtain ⟨pair, hpair, hcovers⟩ := List.countP_pos_iff.1 hcloses
    rw [Bool.and_eq_true] at hcovers
    exact ⟨pair, hpair, hcovers.1⟩
  · exact List.countP_pos_iff.1 hcloses

theorem exists_partners_of_returnsToMill {a b : Point} (hb : Point.onBoard b = true)
    (hback : pos.returnsToMill a b = true) :
    ∃ pair ∈ Board.partners pos.rule.hasDiagonals b,
      ((pos.men pos.state.side).erase a).covers pair = true := by
  simp only [returnsToMill] at hback
  split at hback
  · rw [Bool.and_eq_true, decide_eq_true_iff] at hback
    obtain ⟨pair, hpair, hcovers⟩ := List.countP_pos_iff.1 hback.1
    refine ⟨pair, hpair, ?_⟩
    obtain ⟨hsome, hwithin⟩ := Bitboard.covers_iff.1 hcovers
    refine Bitboard.covers_iff.2 ⟨hsome, fun q hq => ?_⟩
    -- the point of arrival is not one of the two others
    have hne : q ≠ b := by
      rintro rfl
      rw [(Board.partners_spec hb hpair).1] at hq
      cases hq
    have hin := hwithin q hq
    rw [Bitboard.contains_insert (Point.lt_of_onBoard hb)] at hin
    simpa [hne] using hin
  · cases hback

/-- A slide that is possible by its points is listed if its man has not just closed a mill. -/
theorem mem_slides_of_not_last (h : pos.Consistent) (hphase : pos.state.phase = .moving)
    {a b : Point} (ha : pos.contentAt a = pos.state.side.man) (hb : Point.onBoard b = true)
    (hempty : pos.contentAt b = .empty)
    (hreach : pos.canFly pos.state.side = true ∨ b ∈ pos.neighbours a)
    (hlast : ∀ l, pos.state.lastMill.get pos.state.side = some l → l.2 ≠ a) :
    Move.slide a b ∈ pos.slides := by
  have hlive := h.onBoard_of_man ha
  refine (mem_slides_iff h hphase hlive hb).2 ⟨⟨ha, hempty, ?_, ?_⟩, ?_⟩
  · exact hreach.imp_right fun hnear => (Board.of_mem_neighbours hlive hnear).2
  · simp only [returnsToMill]
    split
    · rename_i hcond
      rw [Bool.and_eq_true, beq_iff_eq] at hcond
      exact absurd rfl (hlast _ hcond.2)
    · rfl
  · rintro ⟨_, _, ⟨l, hl, hend⟩, _⟩
    exact hlast l hl hend

/-- Two men or more are not all on one point. -/
theorem Consistent.exists_man_ne (h : pos.Consistent) (hmen : 2 ≤ pos.state.onBoard.get c)
    (p : Point) : ∃ a, pos.contentAt a = c.man ∧ a ≠ p := by
  by_contra hnone
  have hle : (Point.all.countP fun q => pos.contentAt q == c.man) ≤ Point.all.count p := by
    apply List.countP_mono_left
    intro q _ hq
    by_contra hne
    exact hnone ⟨q, by simpa using hq, by simpa using hne⟩
  have hone : Point.all.count p ≤ 1 := List.nodup_iff_count.1 List.nodup_range' p
  rw [h.count] at hmen
  omega

/-- A side with two men or more that is not blocked has a slide. Where repeated mills are
restricted, the man that closed the last mill may be barred from a point that completes another, but
one of the men on the line through that point can go there instead. -/
theorem slides_ne_nil (h : pos.Consistent) (hphase : pos.state.phase = .moving)
    (hunmarked : pos.Unmarked) (hhand : pos.state.inHand.get pos.state.side = 0)
    (hmen : 2 ≤ pos.state.onBoard.get pos.state.side)
    (hfree : pos.isBlocked pos.state.side = false) : pos.slides ≠ [] := by
  obtain ⟨hroom, hfly | ⟨a, b, ha, hnear, hb, hempty⟩⟩ := h.free_of_not_isBlocked hfree
  · have hflies : pos.canFly pos.state.side = true := by
      simp [canFly, hfly.1, hfly.2, hhand]
    obtain ⟨b, hb, hempty⟩ := exists_empty_of_vacancies (h.vacancies_pos hunmarked hroom)
    -- a man other than the one that closed the last mill may fly anywhere
    have hother : ∃ a, pos.contentAt a = pos.state.side.man ∧
        ∀ l, pos.state.lastMill.get pos.state.side = some l → l.2 ≠ a := by
      cases hlast : pos.state.lastMill.get pos.state.side with
      | none =>
          obtain ⟨a, ha, _⟩ := h.exists_man_ne hmen 0
          exact ⟨a, ha, nofun⟩
      | some l =>
          obtain ⟨a, ha, hne⟩ := h.exists_man_ne hmen l.2
          refine ⟨a, ha, fun l' hl => ?_⟩
          cases hl
          exact hne.symm
    obtain ⟨a, ha, hlast⟩ := hother
    exact List.ne_nil_of_mem (mem_slides_of_not_last h hphase ha hb hempty (Or.inl hflies) hlast)
  · by_cases hlisted : Move.slide a b ∈ pos.slides
    · exact List.ne_nil_of_mem hlisted
    -- the slide is barred, so the man has closed a mill last and would complete another line
    have hlive := h.onBoard_of_man ha
    obtain ⟨l, hl, hend⟩ : ∃ l, pos.state.lastMill.get pos.state.side = some l ∧ l.2 = a := by
      by_contra hnone
      refine hlisted (mem_slides_of_not_last h hphase ha hb hempty (Or.inr hnear) ?_)
      exact fun l hl hend => hnone ⟨l, hl, hend⟩
    have hpartners : ∃ pair ∈ Board.partners pos.rule.hasDiagonals b,
        ((pos.men pos.state.side).erase a).covers pair = true := by
      cases hback : pos.returnsToMill a b with
      | true => exact exists_partners_of_returnsToMill hb hback
      | false =>
          have hadjacent := (Board.of_mem_neighbours hlive hnear).2
          have hheld : pos.HeldBack a b := by
            by_contra hnot
            exact hlisted ((mem_slides_iff h hphase hlive hb).2
              ⟨⟨ha, hempty, Or.inr hadjacent, hback⟩, hnot⟩)
          exact exists_partners_of_potentialMills hheld.2.2.2.1
    obtain ⟨pair, hpair, hcovers⟩ := hpartners
    obtain ⟨_, _, q, hq, hnext⟩ := Board.partners_spec hb hpair
    have hin := (Bitboard.covers_iff.1 hcovers).2 q hq
    rw [Bitboard.contains_erase (Point.lt_of_onBoard hlive), Bool.and_eq_true,
      decide_eq_true_iff] at hin
    have hman : pos.contentAt q = pos.state.side.man := (h.agrees.men _ q).1 hin.1
    refine List.ne_nil_of_mem
      (mem_slides_of_not_last h hphase hman hb hempty (Or.inr hnext) fun l' hl' => ?_)
    rw [hl] at hl'
    cases hl'
    rw [hend]
    exact hin.2.symm

/-! ## Placements -/

theorem placements_ne_nil (h : pos.Consistent) (hhand : pos.state.inHand.get pos.state.side ≠ 0)
    (hroom : 0 < pos.vacancies) : pos.placements ≠ [] := by
  obtain ⟨p, hp, hempty⟩ := exists_empty_of_vacancies hroom
  exact List.ne_nil_of_mem (mem_placements_of_empty h hp hempty hhand)

end Position

end Morris
