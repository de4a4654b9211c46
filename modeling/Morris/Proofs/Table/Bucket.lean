import Morris.Table

/-!
# What becomes of a result that is offered

A bucket answers the offer of a result in one of three ways (`Bucket.Offered`): the result takes a
slot, an entry of its key borrows its move, or nothing changes. From this one inversion follow the
facts that do not depend on the order in which results arrive: a key never stands in both slots
(`Bucket.Distinct.offer`), and an entry of the current generation keeps depth, bound and value
unless it gives way to the result (`Bucket.Offered.keeps`). The last section carries both to tables.
-/

set_option autoImplicit false

namespace Morris.Table

/-- An entry gives way to a result that is exact where it is not, and to one of the same exactness
that is at least as deep. -/
theorem Entry.givesWayTo_iff (e : Entry) (depth : Int) (bound : Bound) :
    e.givesWayTo depth bound = true ↔ (e.bound ≠ .exact ∧ bound = .exact) ∨
      ((e.bound = .exact ↔ bound = .exact) ∧ e.depth ≤ depth) := by
  have hexact : ∀ b : Bound, (b == .exact) = decide (b = .exact) := fun _ => rfl
  simp only [Entry.givesWayTo, hexact]
  by_cases hold : e.bound = .exact <;> by_cases hnew : bound = .exact <;> simp [hold, hnew]

namespace Bucket

variable {b next : Bucket} {new e : Entry}

theorem get_set (b : Bucket) (slot other : Slot) (e : Entry) :
    (b.set slot e).get other = if other = slot then some e else b.get other := by
  cases slot <;> cases other <;> rfl

/-! ## The slot of a key -/

theorem exists_of_slotOf {key : Key} {slot : Slot} (h : b.slotOf? key = some slot) :
    ∃ e, b.get slot = some e ∧ e.key = key := by
  simp only [slotOf?] at h
  split at h
  · rename_i hfirst
    cases h
    obtain ⟨e, he, hkey⟩ := (Option.any_eq_true _ _).1 hfirst
    exact ⟨e, he, beq_iff_eq.1 hkey⟩
  · split at h
    · rename_i hsecond
      cases h
      obtain ⟨e, he, hkey⟩ := (Option.any_eq_true _ _).1 hsecond
      exact ⟨e, he, beq_iff_eq.1 hkey⟩
    · cases h

theorem ne_key_of_slotOf_none {key : Key} (h : b.slotOf? key = none) {slot : Slot}
    (he : b.get slot = some e) : e.key ≠ key := by
  simp only [slotOf?] at h
  split at h
  · cases h
  · rename_i hfirst
    split at h
    · cases h
    · rename_i hsecond
      rintro rfl
      cases slot with
      | first => simp [show b.first = some e from he] at hfirst
      | second => simp [show b.second = some e from he] at hsecond

/-! ## Offers -/

/-- What a bucket makes of a result that is offered to it. -/
inductive Offered (b : Bucket) (new : Entry) : Bucket → Prop
  /-- The result takes a slot, which was empty or old or gives way to it. It takes the slot of its
  key if there is one. -/
  | stored (slot : Slot) :
      (∀ old, b.get slot = some old → old.generation = new.generation →
        old.givesWayTo new.depth new.bound = true) →
      (b.slotOf? new.key = some slot ∨ b.slotOf? new.key = none) →
      Offered b new (b.set slot new)
  /-- An entry of its key takes over its move. -/
  | borrowed (slot : Slot) (old : Entry) : b.get slot = some old → old.key = new.key →
      Offered b new (b.set slot { old with move := new.move })
  | refused : Offered b new b

theorem slotOf_slotFor (b : Bucket) (generation : UInt8) (key : Key) :
    b.slotOf? key = some (b.slotFor generation key) ∨ b.slotOf? key = none := by
  simp only [slotFor]
  split
  · rename_i slot hslot
    exact Or.inl hslot
  · rename_i hnone
    exact Or.inr hnone

theorem offered_offer (b : Bucket) (new : Entry) : b.Offered new (b.offer new) := by
  have hslot := b.slotOf_slotFor new.generation new.key
  unfold offer
  simp only
  split
  · rename_i hempty
    refine .stored _ (fun old hold => ?_) hslot
    rw [hempty] at hold
    cases hold
  · rename_i old hold
    split
    · rename_i hgives
      refine .stored _ (fun old' hold' hlive => ?_) hslot
      rw [hold] at hold'
      cases hold'
      simpa [hlive] using hgives
    · split
      · rename_i hborrows
        exact .borrowed _ old hold hborrows.1
      · exact .refused

/-- What stands in a slot after an offer: the result, or what stood there, perhaps with the move of
the result if that is one of its key. -/
theorem Offered.get (h : b.Offered new next) {slot : Slot} (he : next.get slot = some e) :
    e = new ∨ ∃ old, b.get slot = some old ∧
      (e = old ∨ (old.key = new.key ∧ e = { old with move := new.move })) := by
  cases h with
  | stored filled _ _ =>
      rw [get_set] at he
      split at he
      · exact Or.inl (Option.some.inj he).symm
      · exact Or.inr ⟨e, he, Or.inl rfl⟩
  | borrowed filled old hold hkey =>
      rw [get_set] at he
      split at he
      · rename_i hslot
        rw [hslot]
        exact Or.inr ⟨old, hold, Or.inr ⟨hkey, (Option.some.inj he).symm⟩⟩
      · exact Or.inr ⟨e, he, Or.inl rfl⟩
  | refused => exact Or.inr ⟨e, he, Or.inl rfl⟩

/-! ## No key twice -/

/-- No two slots hold entries of one key. -/
def Distinct (b : Bucket) : Prop :=
  ∀ slot other e f, b.get slot = some e → b.get other = some f → e.key = f.key → slot = other

theorem distinct_empty : ({} : Bucket).Distinct := by
  intro slot other e f he
  cases slot <;> cases he

/-- Filling a slot brings no key twice if no other slot holds the key. -/
theorem Distinct.set (h : b.Distinct) {slot : Slot}
    (hother : ∀ other f, other ≠ slot → b.get other = some f → f.key ≠ new.key) :
    (b.set slot new).Distinct := by
  intro s t e f he hf hkey
  rw [get_set] at he hf
  split at he <;> split at hf
  · rename_i hs ht
    exact hs.trans ht.symm
  · rename_i ht
    cases he
    exact absurd hkey.symm (hother t f ht hf)
  · rename_i hs _
    cases hf
    exact absurd hkey (hother s e hs he)
  · exact h s t e f he hf hkey

theorem Offered.distinct (h : b.Offered new next) (hb : b.Distinct) : next.Distinct := by
  cases h with
  | stored slot _ hslot =>
      apply hb.set
      intro other f hne hf hkey
      rcases hslot with hslot | hnone
      · -- the slot of the key is filled, and no other one holds the key
        obtain ⟨e, he, hekey⟩ := exists_of_slotOf hslot
        exact hne (hb other slot f e hf he (hkey.trans hekey.symm))
      · exact ne_key_of_slotOf_none hnone hf hkey
  | borrowed slot old hold _ =>
      apply hb.set
      intro other f hne hf hkey
      exact hne (hb other slot f old hf hold hkey)
  | refused => exact hb

theorem Distinct.offer (h : b.Distinct) (new : Entry) : (b.offer new).Distinct :=
  (b.offered_offer new).distinct h

/-! ## What stays -/

/-- An entry of the generation of an offered result keeps all but its move, or gives way. -/
theorem Offered.keeps (h : b.Offered new next) {slot : Slot} (he : b.get slot = some e)
    (hlive : e.generation = new.generation) :
    (∃ move, next.get slot = some { e with move := move }) ∨
      e.givesWayTo new.depth new.bound = true := by
  cases h with
  | stored filled hgives _ =>
      by_cases hslot : slot = filled
      · subst hslot
        exact Or.inr (hgives e he hlive)
      · refine Or.inl ⟨e.move, ?_⟩
        rw [get_set, if_neg hslot, he]
  | borrowed filled old hold _ =>
      refine Or.inl ?_
      by_cases hslot : slot = filled
      · subst hslot
        rw [hold] at he
        cases he
        exact ⟨new.move, by rw [get_set, if_pos rfl]⟩
      · exact ⟨e.move, by rw [get_set, if_neg hslot, he]⟩
  | refused => exact Or.inl ⟨e.move, he⟩

end Bucket

/-! ## Tables -/

/-- The bucket at an address. -/
def bucketAt (t : Table) (address : Nat × Nat) : Bucket := (t.stored[address]?).getD {}

theorem bucketAt_of_stored_eq_empty {t : Table} (h : t.stored = {}) (address : Nat × Nat) :
    t.bucketAt address = {} := by
  rw [bucketAt, h, Std.HashMap.getElem?_empty, Option.getD_none]

/-- Recording a result offers it to the bucket of its key. -/
theorem bucketAt_save (t : Table) (key : Key) (depth : Int) (bound : Bound) (value : Int)
    (move : Move) (address : Nat × Nat) :
    (t.save key depth (some bound) value move).bucketAt address =
      if t.address key = address then
        (t.bucketAt address).offer ⟨key, value, depth, bound, move, t.generation⟩
      else t.bucketAt address := by
  simp only [bucketAt, save, Std.HashMap.getElem?_insert, beq_iff_eq]
  split
  · rename_i haddress
    rw [Option.getD_some, haddress]
  · rfl

end Morris.Table
