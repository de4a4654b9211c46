import Morris.Proofs.Image
import Morris.Proofs.Progress.Freedom

/-!
# What a symmetry does to the board

A symmetry permutes the live points and leaves the other numbers outside. A set of live points is
carried to the set of their images (`Symmetry.Carries`), and the operations on sets go along: what
is inserted, erased or covered on one side is so on the other. The lines through a point, the lines
of the board, the neighbours of a point and the order of points are carried to those of the image,
up to the order in which the tables list them.
-/

set_option autoImplicit false

namespace Morris

/-- A list that is the image of another up to order stays so when both are filtered alike. -/
theorem filter_perm_map {α β : Type} {f : α → β} {xs : List α} {ys : List β}
    (hperm : ys.Perm (xs.map f)) {P : α → Bool} {Q : β → Bool} (hPQ : ∀ x ∈ xs, Q (f x) = P x) :
    (ys.filter Q).Perm ((xs.filter P).map f) := by
  have hfilter := hperm.filter Q
  rw [List.filter_map, List.filter_congr fun x hx => (Function.comp_apply).trans (hPQ x hx)]
    at hfilter
  exact hfilter

/-- A set has no point outside another if the other holds all its points. -/
theorem Bitboard.isEmpty_inter_compl {a b : Bitboard} : (a.inter b.compl).isEmpty = true ↔
    ∀ q, a.contains q = true → b.contains q = true := by
  rw [isEmpty_iff]
  refine forall_congr' fun q => ?_
  rw [contains_inter, contains_compl]
  constructor
  · intro h hq
    simpa [hq, lt_of_contains hq] using h
  · intro h
    cases hq : a.contains q with
    | false => rfl
    | true => rw [h hq, Bool.not_true, Bool.and_false, Bool.and_false]

/-- All points of a line are live. -/
theorem Board.onBoard_of_mem_lines {diagonals : Bool} {line : Bitboard}
    (hline : line ∈ lines diagonals) {q : Point} (hq : line.contains q = true) :
    Point.onBoard q = true := by
  have hall : ∀ diagonals : Bool, ∀ line ∈ lines diagonals, ∀ q ∈ List.range 32,
      line.contains q = true → Point.onBoard q = true := by
    decide +kernel
  exact hall diagonals line hline q (List.mem_range.2 (Bitboard.lt_of_contains hq)) hq

namespace Symmetry

variable (t : Symmetry)

/-! ## Points -/

/-- The image of a number is live if and only if the number is. -/
theorem onBoard_onPoint_eq (p : Point) : Point.onBoard (t.onPoint p) = Point.onBoard p := by
  simp only [Point.onBoard, decide_eq_decide]
  cases t <;> dsimp only [onPoint, Point] <;> omega

/-- Only a point itself has the image of a live point. -/
theorem onPoint_eq_iff {p : Point} (hp : Point.onBoard p = true) (q : Point) :
    t.onPoint q = t.onPoint p ↔ q = p := by
  simp only [Point.onBoard, decide_eq_true_eq] at hp
  cases t <;> dsimp only [onPoint, Point] at hp ⊢ <;> omega

/-- A symmetry permutes the order of points of either board. -/
theorem map_order_perm (diagonals : Bool) :
    ((Board.order diagonals).map t.onPoint).Perm (Board.order diagonals) := by
  cases t <;> cases diagonals <;> decide +kernel

/-! ## Sets of points -/

/-- Two sets of live points, of which the second holds the images of the points of the first. -/
structure Carries (b b' : Bitboard) : Prop where
  contains : ∀ p, Point.onBoard p = true → b'.contains (t.onPoint p) = b.contains p
  live : ∀ p, b.contains p = true → Point.onBoard p = true
  live' : ∀ p, b'.contains p = true → Point.onBoard p = true

variable {t} {b b' : Bitboard}

/-- The image of a set of live points holds the images of its points. -/
theorem contains_onSet (hlive : ∀ p, b.contains p = true → Point.onBoard p = true) (q : Point) :
    (t.onSet b).contains q = true ↔ ∃ p, b.contains p = true ∧ t.onPoint p = q := by
  have hlt : ∀ q ∈ b.points.map t.onPoint, q < 32 := by
    intro q hq
    obtain ⟨p, hp, rfl⟩ := List.mem_map.1 hq
    exact Point.lt_of_onBoard (t.onBoard_onPoint (hlive p ((Bitboard.mem_points b p).1 hp)))
  rw [onSet, Bitboard.contains_ofPoints hlt, decide_eq_true_iff, List.mem_map]
  exact exists_congr fun p => and_congr_left fun _ => Bitboard.mem_points b p

/-- A set of live points is carried to its image. -/
theorem carries_onSet (hlive : ∀ p, b.contains p = true → Point.onBoard p = true) :
    t.Carries b (t.onSet b) where
  contains p hp := by
    rw [Bool.eq_iff_iff, contains_onSet hlive]
    constructor
    · rintro ⟨r, hr, hrp⟩
      rw [← (t.onPoint_eq_iff hp r).1 hrp]
      exact hr
    · exact fun hin => ⟨p, hin, rfl⟩
  live := hlive
  live' q hq := by
    obtain ⟨p, hp, rfl⟩ := (contains_onSet hlive q).1 hq
    exact t.onBoard_onPoint (hlive p hp)

namespace Carries

/-- What holds of the images of all points of a set holds of all points of the image. -/
theorem forall_iff (h : t.Carries b b') {P Q : Point → Prop}
    (hPQ : ∀ p, Point.onBoard p = true → (Q (t.onPoint p) ↔ P p)) :
    (∀ q, b'.contains q = true → Q q) ↔ ∀ p, b.contains p = true → P p := by
  constructor
  · intro hall p hp
    have hlive := h.live p hp
    exact (hPQ p hlive).1 (hall (t.onPoint p) ((h.contains p hlive).trans hp))
  · intro hall q hq
    obtain ⟨p, hp, rfl⟩ := t.exists_onPoint_eq (h.live' q hq)
    exact (hPQ p hp).2 (hall p ((h.contains p hp).symm.trans hq))

theorem eq_onSet (h : t.Carries b b') : b' = t.onSet b := by
  apply Bitboard.ext_contains
  intro q
  rw [Bool.eq_iff_iff, contains_onSet h.live]
  constructor
  · intro hq
    obtain ⟨p, hp, rfl⟩ := t.exists_onPoint_eq (h.live' q hq)
    exact ⟨p, (h.contains p hp).symm.trans hq, rfl⟩
  · rintro ⟨p, hp, rfl⟩
    exact (h.contains p (h.live p hp)).trans hp

/-- What holds of all points of a set holds, seen through the symmetry, of all points of its image.
-/
theorem all_points (h : t.Carries b b') {f g : Point → Bool}
    (hfg : ∀ p, Point.onBoard p = true → g (t.onPoint p) = f p) :
    b'.points.all g = b.points.all f := by
  rw [Bool.eq_iff_iff, List.all_eq_true, List.all_eq_true]
  simp only [Bitboard.mem_points]
  exact h.forall_iff fun p hp => by rw [hfg p hp]

theorem isEmpty (h : t.Carries b b') : b'.isEmpty = b.isEmpty := by
  have hall := h.forall_iff (P := fun _ => False) (Q := fun _ => False) fun _ _ => Iff.rfl
  rw [Bool.eq_iff_iff, Bitboard.isEmpty_iff, Bitboard.isEmpty_iff]
  simpa using hall

/-- A set covers another if its image covers the image of the other. -/
theorem covers {mask mask' : Bitboard} (h : t.Carries b b') (hmask : t.Carries mask mask') :
    b'.covers mask' = b.covers mask := by
  rw [Bool.eq_iff_iff, Bitboard.covers_iff, Bitboard.covers_iff, hmask.isEmpty]
  exact and_congr_right fun _ => hmask.forall_iff fun p hp => by rw [h.contains p hp]

theorem union {a a' : Bitboard} (h : t.Carries b b') (ha : t.Carries a a') :
    t.Carries (b.union a) (b'.union a') where
  contains p hp := by
    rw [Bitboard.contains_union, Bitboard.contains_union, h.contains p hp, ha.contains p hp]
  live p hp := by
    rw [Bitboard.contains_union, Bool.or_eq_true] at hp
    exact hp.elim (h.live p) (ha.live p)
  live' p hp := by
    rw [Bitboard.contains_union, Bool.or_eq_true] at hp
    exact hp.elim (h.live' p) (ha.live' p)

variable {p : Point}

theorem insert (h : t.Carries b b') (hp : Point.onBoard p = true) :
    t.Carries (b.insert p) (b'.insert (t.onPoint p)) where
  contains q hq := by
    rw [Bitboard.contains_insert (Point.lt_of_onBoard hp),
      Bitboard.contains_insert (Point.lt_of_onBoard (t.onBoard_onPoint hp)), h.contains q hq]
    simp only [t.onPoint_eq_iff hp]
  live q hq := by
    rw [Bitboard.contains_insert (Point.lt_of_onBoard hp), Bool.or_eq_true, decide_eq_true_iff]
      at hq
    rcases hq with hq | rfl
    · exact h.live q hq
    · exact hp
  live' q hq := by
    have himage := t.onBoard_onPoint hp
    rw [Bitboard.contains_insert (Point.lt_of_onBoard himage), Bool.or_eq_true,
      decide_eq_true_iff] at hq
    rcases hq with hq | rfl
    · exact h.live' q hq
    · exact himage

theorem erase (h : t.Carries b b') (hp : Point.onBoard p = true) :
    t.Carries (b.erase p) (b'.erase (t.onPoint p)) where
  contains q hq := by
    rw [Bitboard.contains_erase (Point.lt_of_onBoard hp),
      Bitboard.contains_erase (Point.lt_of_onBoard (t.onBoard_onPoint hp)), h.contains q hq]
    simp only [ne_eq, t.onPoint_eq_iff hp]
  live q hq := by
    rw [Bitboard.contains_erase (Point.lt_of_onBoard hp), Bool.and_eq_true] at hq
    exact h.live q hq.1
  live' q hq := by
    rw [Bitboard.contains_erase (Point.lt_of_onBoard (t.onBoard_onPoint hp)),
      Bool.and_eq_true] at hq
    exact h.live' q hq.1

end Carries

/-! ## Lines and neighbours -/

variable (t) {diagonals : Bool} {p : Point}

theorem partners_perm (hp : Point.onBoard p = true) (diagonals : Bool) :
    (Board.partners diagonals (t.onPoint p)).Perm ((Board.partners diagonals p).map t.onSet) := by
  have hall : ∀ p ∈ Point.all,
      (Board.partners diagonals (t.onPoint p)).Perm ((Board.partners diagonals p).map t.onSet) := by
    cases t <;> cases diagonals <;> decide +kernel
  exact hall p ((Point.mem_all p).2 hp)

/-- A symmetry permutes the lines of either board. -/
theorem lines_perm (diagonals : Bool) :
    (Board.lines diagonals).Perm ((Board.lines diagonals).map t.onSet) := by
  cases t <;> cases diagonals <;> decide +kernel

/-- The neighbours of the image of a point are the images of its neighbours, permuted. -/
theorem neighbours_perm (hp : Point.onBoard p = true) (diagonals : Bool) :
    (Board.neighbours diagonals (t.onPoint p)).Perm
      ((Board.neighbours diagonals p).map t.onPoint) := by
  have hall : ∀ p ∈ Point.all, (Board.neighbours diagonals (t.onPoint p)).Perm
      ((Board.neighbours diagonals p).map t.onPoint) := by
    cases t <;> cases diagonals <;> decide +kernel
  exact hall p ((Point.mem_all p).2 hp)

theorem carries_line {line : Bitboard} (hline : line ∈ Board.lines diagonals) :
    t.Carries line (t.onSet line) :=
  carries_onSet fun _ hq => Board.onBoard_of_mem_lines hline hq

theorem carries_partners (hp : Point.onBoard p = true) {pair : Bitboard}
    (hpair : pair ∈ Board.partners diagonals p) : t.Carries pair (t.onSet pair) := by
  obtain ⟨_, hline, _⟩ := Board.partners_spec hp hpair
  refine carries_onSet fun q hq => Board.onBoard_of_mem_lines hline ?_
  rw [Bitboard.contains_insert (Point.lt_of_onBoard hp), hq, Bool.true_or]

/-- The lines through the image of a point are counted as the lines through the point. -/
theorem countP_partners (hp : Point.onBoard p = true) {f g : Bitboard → Bool}
    (hfg : ∀ pair, t.Carries pair (t.onSet pair) → g (t.onSet pair) = f pair) :
    (Board.partners diagonals (t.onPoint p)).countP g = (Board.partners diagonals p).countP f := by
  rw [(t.partners_perm hp diagonals).countP_eq, List.countP_map]
  apply List.countP_congr
  intro pair hpair
  rw [Function.comp_apply, hfg pair (t.carries_partners hp hpair)]

theorem carries_around (hp : Point.onBoard p = true) (diagonals : Bool) :
    t.Carries (Board.around diagonals p) (Board.around diagonals (t.onPoint p)) := by
  have hmem : ∀ {p q : Point}, Point.onBoard p = true →
      ((Board.around diagonals p).contains q = true ↔ q ∈ Board.neighbours diagonals p) := fun hp =>
    ⟨Board.mem_neighbours hp, fun hin => (Board.of_mem_neighbours hp hin).2⟩
  have himage := t.onBoard_onPoint hp
  constructor
  case contains =>
    intro q hq
    rw [Bool.eq_iff_iff, hmem hp, hmem himage, (t.neighbours_perm hp _).mem_iff, List.mem_map]
    constructor
    · rintro ⟨r, hr, hrq⟩
      rw [← (t.onPoint_eq_iff hq r).1 hrq]
      exact hr
    · exact fun hin => ⟨q, hin, rfl⟩
  case live => exact fun q hq => (Board.of_mem_neighbours hp ((hmem hp).1 hq)).1
  case live' => exact fun q hq => (Board.of_mem_neighbours himage ((hmem himage).1 hq)).1

/-! ## Moves -/

theorem onMove_place (hp : Point.onBoard p = true) :
    t.onMove (.place p) = .place (t.onPoint p) := by
  obtain ⟨hkind, htarget⟩ := Move.place_spec hp
  simp only [onMove, hkind, htarget, Move.isProper_place hp, Bool.not_true, Bool.false_eq_true,
    if_false]

theorem onMove_remove (hp : Point.onBoard p = true) :
    t.onMove (.remove p) = .remove (t.onPoint p) := by
  obtain ⟨hkind, htarget⟩ := Move.remove_spec hp
  simp only [onMove, hkind, htarget, Move.isProper_remove hp, Bool.not_true, Bool.false_eq_true,
    if_false]

theorem onMove_slide {a c : Point} (ha : Point.onBoard a = true) (hc : Point.onBoard c = true)
    (hne : a ≠ c) : t.onMove (.slide a c) = .slide (t.onPoint a) (t.onPoint c) := by
  obtain ⟨hkind, horigin, htarget⟩ := Move.slide_spec ha hc
  simp only [onMove, hkind, horigin, htarget, Move.isProper_slide ha hc hne, Bool.not_true,
    Bool.false_eq_true, if_false]

/-- Moves to the images of points are the images of the moves, up to order. -/
theorem map_moves_perm {ps ps' : List Point} (hperm : ps'.Perm (ps.map t.onPoint))
    {f g : Point → Move} (hfg : ∀ p ∈ ps, t.onMove (f p) = g (t.onPoint p)) :
    (ps'.map g).Perm ((ps.map f).map t.onMove) := by
  have hmoves : ps.map (t.onMove ∘ f) = ps.map (g ∘ t.onPoint) := List.map_congr_left hfg
  rw [List.map_map, hmoves, ← List.map_map]
  exact hperm.map g

end Symmetry

end Morris
