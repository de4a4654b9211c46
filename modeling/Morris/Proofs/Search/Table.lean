import Morris.Search.Negamax

/-!
# Windows and stored bounds

A search within a window need not find the true value of a position: `Search.Within` says what the
found value tells of it. The table stores such values with a bound and a depth. It is
`Table.Truthful` when the bound of every entry holds for the true values, given which values the
positions of a key have for entries of a depth. Recording a true result keeps the table truthful
(`Table.Truthful.save`), and looking up a truthful table either settles a position or leaves a
window that is as good as the one asked for (`Table.Truthful.probe`). A look-up passes over the
entries that are not deep enough, so only those that are need to tell the value.
-/

set_option autoImplicit false

namespace Morris

/-! ## Windows -/

namespace Search

/-- What a value found within a window tells of the true one: below the upper end it is not too
small, and above the lower end not too great. -/
structure Within (alpha beta found exact : Int) : Prop where
  above : found < beta → exact ≤ found
  below : alpha < found → found ≤ exact

/-- A window narrowed to its part on one side of bounds of the true value. -/
structure Narrowed (alpha beta exact alpha' beta' : Int) : Prop where
  inside : alpha' < beta'
  lower : alpha' = alpha ∨ (alpha ≤ alpha' ∧ alpha' ≤ exact)
  upper : beta' = beta ∨ (beta' ≤ beta ∧ exact ≤ beta')

variable {alpha beta alpha' beta' found exact : Int}

theorem within_self (alpha beta exact : Int) : Within alpha beta exact exact :=
  ⟨fun _ => Int.le_refl exact, fun _ => Int.le_refl exact⟩

/-- Within a window that holds it, the found value is the true one. -/
theorem Within.eq (h : Within alpha beta found exact) (hlow : alpha < found)
    (hhigh : found < beta) : found = exact :=
  Int.le_antisymm (h.below hlow) (h.above hhigh)

theorem Within.neg (h : Within (-beta) (-alpha) found exact) :
    Within alpha beta (-found) (-exact) := by
  constructor
  · intro hlt
    have hle := h.below (by omega)
    omega
  · intro hlt
    have hle := h.above (by omega)
    omega

theorem Within.of_narrowed (h : Within alpha' beta' found exact)
    (hnarrow : Narrowed alpha beta exact alpha' beta') : Within alpha beta found exact := by
  constructor
  · intro hlt
    rcases Int.lt_or_le found beta' with hbelow | hbeyond
    · exact h.above hbelow
    -- at or beyond a lowered end the value is above a bound of the true one
    · rcases hnarrow.upper with rfl | ⟨_, hbound⟩
      · omega
      · exact Int.le_trans hbound hbeyond
  · intro hlt
    rcases Int.lt_or_le alpha' found with habove | hbehind
    · exact h.below habove
    -- at or below a raised end it is under one
    · rcases hnarrow.lower with rfl | ⟨_, hbound⟩
      · omega
      · exact Int.le_trans hbehind hbound

end Search

/-! ## Entries -/

/-- What a stored value with a bound says of the true value. -/
def Bound.Holds (bound : Bound) (stored exact : Int) : Prop :=
  match bound with
  | .upper => exact ≤ stored
  | .lower => stored ≤ exact
  | .exact => stored = exact

/-- A value found within a window is recorded with a bound that holds. -/
theorem Search.Within.bound_holds {alpha beta found exact : Int}
    (h : Search.Within alpha beta found exact) (hinside : alpha < beta) :
    (Search.boundOf alpha beta found).Holds found exact := by
  simp only [Search.boundOf]
  split
  · rename_i hlow
    exact h.above (Int.lt_of_le_of_lt hlow hinside)
  · rename_i hlow
    split
    · exact h.below (Int.not_le.1 hlow)
    · rename_i hhigh
      exact h.eq (Int.not_le.1 hlow) (Int.not_le.1 hhigh)

namespace Table

section

variable (holds : Key → Int → Int → Prop) (limit : Int)

/-- An entry with a real move and a value within a limit, whose bound holds for every value that a
position of its key has for entries of its depth. -/
structure Entry.Truthful (e : Entry) : Prop where
  proper : e.move.isProper = true
  bounded : -limit ≤ e.value ∧ e.value ≤ limit
  bound : ∀ exact, holds e.key e.depth exact → e.bound.Holds e.value exact

/-- A bucket of such entries. -/
def Bucket.Truthful (b : Bucket) : Prop :=
  ∀ slot e, b.get slot = some e → e.Truthful holds limit

/-- A table of such entries. -/
def Truthful (t : Table) : Prop :=
  ∀ (address : Nat × Nat) (b : Bucket), t.stored[address]? = some b → b.Truthful holds limit

end

variable {holds : Key → Int → Int → Prop} {limit : Int}

theorem Bucket.truthful_empty : ({} : Bucket).Truthful holds limit := by
  intro slot e he
  cases slot <;> cases he

theorem Bucket.Truthful.set {b : Bucket} (h : b.Truthful holds limit) (slot : Slot) {new : Entry}
    (hnew : new.Truthful holds limit) : (b.set slot new).Truthful holds limit := by
  intro other e he
  cases slot <;> cases other
  case first.first =>
    cases he
    exact hnew
  case second.second =>
    cases he
    exact hnew
  case first.second => exact h .second e he
  case second.first => exact h .first e he

/-- Whatever becomes of a true result that is offered, the bucket stays truthful. -/
theorem Bucket.Truthful.offer {b : Bucket} (h : b.Truthful holds limit) {new : Entry}
    (hnew : new.Truthful holds limit) : (b.offer new).Truthful holds limit := by
  unfold Bucket.offer
  simp only
  split
  · exact h.set _ hnew
  · rename_i old hold
    split
    · exact h.set _ hnew
    · split
      -- the old entry keeps its value and bound, and only takes over the move
      · rename_i hcond
        have htrue := h _ _ hold
        exact h.set _ ⟨hcond.2.1, htrue.bounded, htrue.bound⟩
      · exact h

theorem Bucket.find?_spec {b : Bucket} {key : Key} {e : Entry} (h : b.find? key = some e) :
    e.key = key ∧ ∃ slot, b.get slot = some e := by
  simp only [Bucket.find?, Bucket.slotOf?] at h
  split at h
  · rename_i hfirst
    have he : b.first = some e := h
    rw [he] at hfirst
    exact ⟨by simpa using hfirst, .first, he⟩
  · split at h
    · rename_i hsecond
      have he : b.second = some e := h
      rw [he] at hsecond
      exact ⟨by simpa using hsecond, .second, he⟩
    · cases h

/-! ## Tables -/

theorem truthful_of_stored_eq_empty {t : Table} (h : t.stored = {}) :
    t.Truthful holds limit := by
  intro address b hb
  rw [h, Std.HashMap.getElem?_empty] at hb
  cases hb

/-- A table stays truthful when less is asked of it. -/
theorem Truthful.mono {t : Table} {holds' : Key → Int → Int → Prop} (h : t.Truthful holds limit)
    (hless : ∀ key stored exact, holds' key stored exact → holds key stored exact) :
    t.Truthful holds' limit := by
  intro address b hb slot e he
  have htrue := h address b hb slot e he
  exact ⟨htrue.proper, htrue.bounded, fun exact hexact =>
    htrue.bound exact (hless e.key e.depth exact hexact)⟩

theorem Truthful.bucket {t : Table} (h : t.Truthful holds limit) (address : Nat × Nat) :
    (t.stored[address]?.getD {}).Truthful holds limit := by
  cases hb : t.stored[address]? with
  | none => exact Bucket.truthful_empty
  | some b => exact h address b hb

/-- Recording a true result keeps a table truthful. -/
theorem Truthful.save {t : Table} (h : t.Truthful holds limit) {key : Key} {bound : Bound}
    {value : Int} {move : Move} {depth : Int} (hproper : move.isProper = true)
    (hbounded : -limit ≤ value ∧ value ≤ limit)
    (hbound : ∀ exact, holds key depth exact → bound.Holds value exact) :
    (t.save key depth (some bound) value move).Truthful holds limit := by
  intro address b hb
  simp only [Table.save, Std.HashMap.getElem?_insert] at hb
  split at hb
  · cases hb
    exact (h.bucket (t.address key)).offer ⟨hproper, hbounded, hbound⟩
  · exact h address b hb

/-- An entry whose bound holds settles a position or narrows the window around its value. -/
theorem Entry.Truthful.narrow {e : Entry} (h : e.Truthful holds limit) {alpha beta exact : Int}
    (hexact : holds e.key e.depth exact) (hinside : alpha < beta) :
    (∀ v, (e.narrow alpha beta).cutoff = some v →
        v = e.value ∧ Search.Within alpha beta v exact) ∧
      ((e.narrow alpha beta).cutoff = none →
        Search.Narrowed alpha beta exact (e.narrow alpha beta).alpha (e.narrow alpha beta).beta) ∧
      (e.narrow alpha beta).move = e.move := by
  have hbound := h.bound exact hexact
  simp only [Entry.narrow]
  -- a bound cuts off only where it settles the window, and else narrows one side of it
  cases hkind : e.bound with
  | exact =>
      rw [hkind] at hbound
      refine ⟨?_, nofun, rfl⟩
      rintro v ⟨⟩
      have heq : e.value = exact := hbound
      exact ⟨rfl, heq ▸ Search.within_self alpha beta e.value⟩
  | lower =>
      rw [hkind] at hbound
      have hle : e.value ≤ exact := hbound
      refine ⟨?_, ?_, rfl⟩
      · intro v hv
        simp only at hv
        split at hv <;> cases hv
        exact ⟨rfl, by omega, fun _ => hle⟩
      · intro hnone
        simp only at hnone
        split at hnone
        · cases hnone
        · show Search.Narrowed alpha beta exact (max alpha e.value) beta
          exact ⟨by omega, by omega, Or.inl rfl⟩
  | upper =>
      rw [hkind] at hbound
      have hle : exact ≤ e.value := hbound
      refine ⟨?_, ?_, rfl⟩
      · intro v hv
        simp only at hv
        split at hv <;> cases hv
        exact ⟨rfl, fun _ => hle, by omega⟩
      · intro hnone
        simp only at hnone
        split at hnone
        · cases hnone
        · show Search.Narrowed alpha beta exact alpha (min beta e.value)
          exact ⟨by omega, Or.inl rfl, by omega⟩

/-- What a look-up gives: a value that settles the position, with a move, or a window that is as
good as the one asked for. -/
structure Probe.Fair (limit alpha beta exact : Int) (probe : Probe) : Prop where
  settles : ∀ v, probe.cutoff = some v → Search.Within alpha beta v exact ∧
    (-limit ≤ v ∧ v ≤ limit) ∧ probe.move.isProper = true
  leaves : probe.cutoff = none → Search.Narrowed alpha beta exact probe.alpha probe.beta

theorem Truthful.probe {t : Table} (h : t.Truthful holds limit) {key : Key}
    {alpha beta exact depth : Int} (hexact : ∀ stored, depth ≤ stored → holds key stored exact)
    (hinside : alpha < beta) :
    (t.probe key depth alpha beta).Fair limit alpha beta exact := by
  simp only [Table.probe]
  split
  · exact ⟨nofun, fun _ => ⟨hinside, Or.inl rfl, Or.inl rfl⟩⟩
  · rename_i e he
    obtain ⟨rfl, slot, hslot⟩ := Bucket.find?_spec he
    have htrue : e.Truthful holds limit := h.bucket _ slot e hslot
    split
    · exact ⟨nofun, fun _ => ⟨hinside, Or.inl rfl, Or.inl rfl⟩⟩
    -- an entry that is looked at is deep enough to tell the value
    · rename_i hdeep
      rw [not_or, Int.not_lt] at hdeep
      obtain ⟨hsettled, hopen, hmove⟩ := htrue.narrow (hexact e.depth hdeep.2) hinside
      refine ⟨?_, hopen⟩
      intro v hv
      obtain ⟨rfl, hwithin⟩ := hsettled v hv
      exact ⟨hwithin, htrue.bounded, hmove ▸ htrue.proper⟩

/-- A table without entries leaves the window as it is. -/
theorem probe_of_stored_eq_empty {t : Table} (h : t.stored = {}) (key : Key)
    (depth alpha beta : Int) : t.probe key depth alpha beta = ⟨none, alpha, beta, .none⟩ := by
  have hbucket : t.bucketOf key = {} := by
    rw [Table.bucketOf, h, Std.HashMap.getElem?_empty]
    rfl
  have hnone : ({} : Bucket).find? key = none := rfl
  rw [Table.probe, hbucket, hnone]

end Table

end Morris
