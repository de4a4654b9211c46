import Morris.Variant

/-!
# Variants that can be made

A variant is made from a valid rule, and its order may be reshuffled any number of times. Shuffling
permutes (`Random.permutes_shuffle`), so that every variant made in this way lists each live point
once (`Variant.Made.order`).
-/

set_option autoImplicit false

namespace Morris

namespace Random

variable {α : Type}

/-- An exchange of two entries is a permutation, and one outside the list changes nothing. -/
theorem swap_perm (xs : List α) (i j : Nat) : (swap xs i j).Perm xs := by
  simp only [swap]
  split
  · rename_i x y hx hy
    obtain ⟨hi, rfl⟩ := List.getElem?_eq_some_iff.1 hx
    obtain ⟨hj, rfl⟩ := List.getElem?_eq_some_iff.1 hy
    have hswap := @Array.swap_perm α xs.toArray i j hi hj
    simpa [Array.perm_iff_toList_perm, Array.swap_def] using hswap
  · exact List.Perm.refl xs

theorem shuffleFrom_perm (n i : Nat) (xs : List α) (s : Indices) :
    (shuffleFrom n i xs s).1.Perm xs := by
  induction n generalizing i xs s with
  | zero => exact List.Perm.refl xs
  | succ n ih => exact (ih (i + 1) (swap xs i s.next.1) s.next.2).trans (swap_perm xs i s.next.1)

/-- A way to shuffle lists only ever permutes them, whatever it draws from. -/
def Permutes {G : Type} (shuffle : List α → G → List α × G) : Prop :=
  ∀ xs g, (shuffle xs g).1.Perm xs

/-- The shuffle over the generator's bits permutes. -/
theorem permutes_shuffle : Permutes (shuffle : List α → Generator → List α × Generator) :=
  fun xs g => shuffleFrom_perm xs.length 0 xs (.start g)

/-- If a shuffle permutes, then so does shuffling group by group. -/
theorem Permutes.shuffleRunsBy {G : Type} {shuffle : List α → G → List α × G}
    (h : Permutes shuffle) (sizes : List Nat) : Permutes (shuffleRunsBy shuffle sizes) := by
  intro xs g
  induction sizes generalizing xs g with
  | nil => exact List.Perm.refl xs
  | cons n sizes ih =>
      -- each group is shuffled by itself, and what is left by the induction
      have hruns := (h (xs.take n) g).append (ih (xs.drop n) (shuffle (xs.take n) g).2)
      rw [List.take_append_drop] at hruns
      exact hruns

end Random

namespace Variant

/-- A variant of a valid rule, reshuffled any number of times. -/
inductive Made : Variant → Prop
  | ofRule {rule : Rule} : rule.Valid → Made (.ofRule rule)
  | reshuffled {v : Variant} (g : Random.Generator) : Made v → Made (v.reshuffled g).1

theorem Made.valid {v : Variant} (h : v.Made) : v.rule.Valid := by
  induction h with
  | ofRule hvalid => exact hvalid
  | reshuffled g _ ih => exact ih

/-- The order of a variant is that of its board up to a permutation. -/
theorem Made.order {v : Variant} (h : v.Made) :
    v.order.Perm (Board.order v.rule.hasDiagonals) := by
  induction h with
  | ofRule _ => exact List.Perm.refl _
  | reshuffled g _ ih => exact (Random.permutes_shuffle.shuffleRunsBy Board.groupSizes _ g).trans ih

theorem made_of_ofRule {rule : Rule} {v : Variant} (h : ofRule? rule = .ok v) :
    v.Made ∧ v.rule = rule := by
  simp only [ofRule?] at h
  split at h
  · cases h
  · rename_i hfault
    cases h
    exact ⟨.ofRule hfault, rfl⟩

end Variant

end Morris
