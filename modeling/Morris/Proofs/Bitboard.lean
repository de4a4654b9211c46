import Morris.Bitboard

/-!
# Membership in sets of points

`Bitboard.contains` is the view in which the operations on sets of points are read: this module says
what each of them does to membership. Two sets with the same members are equal
(`Bitboard.ext_contains`), and no number from 32 on is a member (`Bitboard.lt_of_contains`).
-/

set_option autoImplicit false

namespace Morris.Bitboard

theorem contains_empty (q : Point) : empty.contains q = false := by
  simp [empty, contains]

theorem contains_single {p : Point} (hp : p < 32) (q : Point) :
    (single p).contains q = decide (q = p) := by
  have hbit : (single p).contains q = (decide (q < 32) && Nat.testBit (2 ^ p) q) := by
    simp only [single, contains, UInt32.toBitVec_ofNat', BitVec.getLsbD_ofNat,
      Nat.one_shiftLeft]
  rw [hbit, Nat.testBit_two_pow]
  by_cases h : p = q
  · subst h
    simp [hp]
  · have h' : q ≠ p := fun e => h e.symm
    simp [h, h']

theorem contains_union (a b : Bitboard) (q : Point) :
    (a.union b).contains q = (a.contains q || b.contains q) := by
  simp [union, contains]

theorem contains_inter (a b : Bitboard) (q : Point) :
    (a.inter b).contains q = (a.contains q && b.contains q) := by
  simp [inter, contains]

theorem contains_compl (b : Bitboard) (q : Point) :
    b.compl.contains q = (decide (q < 32) && !b.contains q) := by
  simp [compl, contains]

/-- Only the numbers that a word has bits for belong to a set. -/
theorem lt_of_contains {b : Bitboard} {q : Point} (h : b.contains q = true) : q < 32 :=
  BitVec.lt_of_getLsbD h

theorem contains_insert {p : Point} (hp : p < 32) (b : Bitboard) (q : Point) :
    (b.insert p).contains q = (b.contains q || decide (q = p)) := by
  rw [insert, contains_union, contains_single hp]

theorem contains_erase {p : Point} (hp : p < 32) (b : Bitboard) (q : Point) :
    (b.erase p).contains q = (b.contains q && decide (q ≠ p)) := by
  rw [erase, contains_inter, contains_compl, contains_single hp]
  cases h : b.contains q with
  | false => simp
  | true =>
      have hq := lt_of_contains h
      simp [hq]

/-- Sets with the same members are equal. -/
theorem ext_contains {a b : Bitboard} (h : ∀ q, a.contains q = b.contains q) : a = b := by
  rcases a with ⟨x⟩
  rcases b with ⟨y⟩
  have hxy : x = y := by
    apply UInt32.toBitVec_inj.1
    apply BitVec.eq_of_getLsbD_eq
    intro i _
    exact h i
  rw [hxy]

/-- The listed points of a set are its members. -/
theorem mem_points (b : Bitboard) (q : Point) : q ∈ b.points ↔ b.contains q = true := by
  rw [points, List.mem_filter, List.mem_range]
  exact ⟨fun h => h.2, fun h => ⟨lt_of_contains h, h⟩⟩

theorem contains_foldl_insert {ps : List Point} (hps : ∀ p ∈ ps, p < 32) (b : Bitboard)
    (q : Point) : (ps.foldl insert b).contains q = (b.contains q || decide (q ∈ ps)) := by
  induction ps generalizing b with
  | nil => simp
  | cons p ps ih =>
      have hp := hps p List.mem_cons_self
      have hrest : ∀ r ∈ ps, r < 32 := fun r hr => hps r (List.mem_cons_of_mem p hr)
      rw [List.foldl_cons, ih hrest, contains_insert hp]
      by_cases h : q = p
      · simp [h]
      · simp [h]

/-- The set made from a list has the points of the list as members. -/
theorem contains_ofPoints {ps : List Point} (hps : ∀ p ∈ ps, p < 32) (q : Point) :
    (ofPoints ps).contains q = decide (q ∈ ps) := by
  rw [ofPoints, contains_foldl_insert hps, contains_empty, Bool.false_or]

/-- A set without points has no members. -/
theorem isEmpty_iff {b : Bitboard} : b.isEmpty = true ↔ ∀ q, b.contains q = false := by
  rw [isEmpty, beq_iff_eq]
  constructor
  · intro h q
    rw [show b = empty from congrArg Bitboard.mk h, contains_empty]
  · intro h
    have hempty : b = empty := ext_contains fun q => (h q).trans (contains_empty q).symm
    rw [hempty]
    rfl

/-- A set covers a mask that has members, all of which are its own. -/
theorem covers_iff {b mask : Bitboard} : b.covers mask = true ↔
    mask.isEmpty = false ∧ ∀ q, mask.contains q = true → b.contains q = true := by
  have hinter : b.inter mask = mask ↔ ∀ q, mask.contains q = true → b.contains q = true := by
    constructor
    · intro h q hq
      rw [← h, contains_inter, Bool.and_eq_true] at hq
      exact hq.1
    · intro h
      apply ext_contains
      intro q
      rw [contains_inter]
      cases hq : mask.contains q with
      | false => rw [Bool.and_false]
      | true => rw [h q hq, Bool.and_true]
  rw [covers, Bool.and_eq_true, Bool.not_eq_true', beq_iff_eq, hinter]

end Morris.Bitboard
