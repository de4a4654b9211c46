import Morris.Key

/-!
# Keys kept up to date

A change of the board changes its key by the words of what stood and of what stands on the point
(`Key.ofBoard_update`), and since no word uses the four highest bits (`Key.word_high`), such a
change leaves the owed removals written there alone (`Key.withOwed_xor`). A new number of owed
removals replaces the old one and keeps the rest (`Key.withOwed_congr`, `Key.shiftLeft_withOwed`).
-/

set_option autoImplicit false

namespace Morris

theorem Point.mem_all (p : Point) : p ∈ Point.all ↔ Point.onBoard p = true := by
  simp [Point.all, Point.onBoard, List.mem_range'_1]

namespace Key

/-! ## The four highest bits -/

theorem toBitVec_withOwed (k : Key) (owed : Nat) :
    (k.withOwed owed).toBitVec =
      (k.toBitVec <<< 4) >>> 4 ||| (BitVec.ofNat 64 owed &&& 15#64) <<< 60 := rfl

private theorem testBit_fifteen {i : Nat} (hi : i < 4) : Nat.testBit 15 i = true := by
  have hcases : i = 0 ∨ i = 1 ∨ i = 2 ∨ i = 3 := by omega
  rcases hcases with rfl | rfl | rfl | rfl <;> rfl

theorem getLsbD_withOwed (k : Key) (owed : Nat) {i : Nat} (hi : i < 64) :
    (k.withOwed owed).toBitVec.getLsbD i =
      if i < 60 then k.toBitVec.getLsbD i else owed.testBit (i - 60) := by
  rw [toBitVec_withOwed]
  simp only [BitVec.getLsbD_or, BitVec.getLsbD_ushiftRight, BitVec.getLsbD_shiftLeft,
    BitVec.getLsbD_and, BitVec.getLsbD_ofNat]
  -- below bit 60 the keys go through, and above it the word has no bit
  by_cases h60 : i < 60
  · have h4 : 4 + i - 4 = i := by omega
    have hlt : 4 + i < 64 := by omega
    have hge : ¬ 4 + i < 4 := by omega
    simp [h60, h4, hlt, hge]
  · have hge : ¬ 4 + i < 64 := by omega
    have hlow : i - 60 < 64 := by omega
    have hmask : Nat.testBit 15 (i - 60) = true := testBit_fifteen (by omega)
    simp [h60, hge, hi, hlow, hmask]

/-- Writing the owed removals keeps the other bits. -/
theorem shiftLeft_withOwed (k : Key) (owed : Nat) : k.withOwed owed <<< 4 = k <<< 4 := by
  apply UInt64.toBitVec_inj.1
  apply BitVec.eq_of_getLsbD_eq
  intro i hi
  simp only [UInt64.toBitVec_shiftLeft]
  show ((k.withOwed owed).toBitVec <<< 4).getLsbD i = (k.toBitVec <<< 4).getLsbD i
  have h60 : i - 4 < 60 := by omega
  rw [BitVec.getLsbD_shiftLeft, BitVec.getLsbD_shiftLeft, getLsbD_withOwed k owed (by omega),
    if_pos h60]

/-- A key with the owed removals written depends on the other bits alone. -/
theorem withOwed_congr {k l : Key} (h : k <<< 4 = l <<< 4) (owed : Nat) :
    k.withOwed owed = l.withOwed owed := by
  rw [withOwed, withOwed, h]

/-- A word that uses none of the four highest bits goes past the owed removals. -/
theorem withOwed_xor {w : Key} (hw : w >>> 60 = 0) (k : Key) (owed : Nat) :
    (k ^^^ w).withOwed owed = k.withOwed owed ^^^ w := by
  apply UInt64.toBitVec_inj.1
  apply BitVec.eq_of_getLsbD_eq
  intro i hi
  rw [UInt64.toBitVec_xor, BitVec.getLsbD_xor, getLsbD_withOwed _ _ hi, getLsbD_withOwed _ _ hi,
    UInt64.toBitVec_xor, BitVec.getLsbD_xor]
  by_cases h60 : i < 60
  · simp [h60]
  -- the high bits of the word are zero, so they do not reach the owed removals
  · have hzero : w.toBitVec.getLsbD i = false := by
      have hshift : (w >>> 60).toBitVec.getLsbD (i - 60) = w.toBitVec.getLsbD i := by
        show (w.toBitVec >>> 60).getLsbD (i - 60) = w.toBitVec.getLsbD i
        rw [BitVec.getLsbD_ushiftRight]
        congr 1
        omega
      rw [← hshift, hw]
      simp
    simp [h60, hzero]

theorem xor_shiftLeft (k l : Key) : (k ^^^ l) <<< 4 = (k <<< 4) ^^^ (l <<< 4) := by
  apply UInt64.toBitVec_inj.1
  show (k.toBitVec ^^^ l.toBitVec) <<< 4 = (k.toBitVec <<< 4) ^^^ (l.toBitVec <<< 4)
  exact BitVec.shiftLeft_xor_distrib _ _ _

/-! ## Words -/

private theorem getD_high {words : Array UInt64} (h : words.all (fun w => w >>> 60 == 0) = true)
    (p : Point) : (words[p]?.getD 0) >>> 60 = 0 := by
  cases hp : words[p]? with
  | none => rfl
  | some w => exact beq_iff_eq.1 (Array.all_eq_true_iff_forall_mem.1 h w (Array.mem_of_getElem? hp))

/-- No word uses the four highest bits. -/
theorem word_high (c : Content) (p : Point) : word c p >>> 60 = 0 := by
  cases c with
  | empty => exact UInt64.zero_shiftRight
  | white => exact getD_high (by decide +kernel) p
  | black => exact getD_high (by decide +kernel) p
  | marked => exact getD_high (by decide +kernel) p

/-! ## The key of a board -/

private theorem foldl_xor_init (f : Point → Key) (ps : List Point) (k l : Key) :
    ps.foldl (fun k p => k ^^^ f p) (k ^^^ l) = ps.foldl (fun k p => k ^^^ f p) k ^^^ l := by
  induction ps generalizing k with
  | nil => rfl
  | cons p ps ih =>
      rw [List.foldl_cons, List.foldl_cons, UInt64.xor_assoc, UInt64.xor_comm l,
        ← UInt64.xor_assoc]
      exact ih (k ^^^ f p)

private theorem foldl_xor_congr {f g : Point → Key} {ps : List Point} (h : ∀ p ∈ ps, f p = g p)
    (k : Key) : ps.foldl (fun k p => k ^^^ f p) k = ps.foldl (fun k p => k ^^^ g p) k := by
  induction ps generalizing k with
  | nil => rfl
  | cons p ps ih =>
      rw [List.foldl_cons, List.foldl_cons, h p List.mem_cons_self]
      exact ih (fun q hq => h q (List.mem_cons_of_mem p hq)) (k ^^^ g p)

private theorem foldl_xor_update {f g : Point → Key} {p : Point} {ps : List Point}
    (hp : p ∈ ps) (hnodup : ps.Nodup) (h : ∀ q, q ≠ p → g q = f q) (k : Key) :
    ps.foldl (fun k p => k ^^^ g p) k = ps.foldl (fun k p => k ^^^ f p) k ^^^ f p ^^^ g p := by
  induction ps generalizing k with
  | nil => cases hp
  | cons r ps ih =>
      rw [List.nodup_cons] at hnodup
      rcases List.mem_cons.1 hp with rfl | hmem
      · have hrest : ∀ q ∈ ps, g q = f q := by
          intro q hq
          apply h
          rintro rfl
          exact hnodup.1 hq
        -- the old word cancels against itself
        rw [List.foldl_cons, List.foldl_cons, foldl_xor_congr hrest, foldl_xor_init,
          foldl_xor_init, UInt64.xor_assoc _ (f p) (f p), UInt64.xor_self, UInt64.xor_zero]
      · have hne : r ≠ p := by
          rintro rfl
          exact hnodup.1 hmem
        rw [List.foldl_cons, List.foldl_cons, h r hne]
        exact ih hmem hnodup.2 (k ^^^ f r)

/-- A change of one live point changes the key of the board by the words of the old and of the new
content. -/
theorem ofBoard_update {f g : Point → Content} {p : Point} (hp : Point.onBoard p = true)
    (h : ∀ q, q ≠ p → g q = f q) :
    ofBoard g = ofBoard f ^^^ word (f p) p ^^^ word (g p) p := by
  have hmem : p ∈ Point.all := (Point.mem_all p).2 hp
  have hnodup : Point.all.Nodup := by decide
  exact foldl_xor_update (f := fun q => word (f q) q) (g := fun q => word (g q) q) hmem hnodup
    (fun q hq => by rw [h q hq]) 0

end Key

end Morris
