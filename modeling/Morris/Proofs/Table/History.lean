import Morris.Proofs.Search.Table
import Morris.Proofs.Table.Bucket

/-!
# What a table remembers of a run

A table is used by recording results, looking keys up, beginning searches and forgetting everything.
`Recorded ops n r` says that a run of such operations has recorded a result, has not forgotten it
since, and has begun `n` searches after it. Every entry that a run leaves in a table comes from
recorded results of its key (`Entry.From`): one gave all but the move, one gave the move, and its
generation tells the number of searches begun since up to multiples of 256.

Main statements: what a look-up tells is backed by recorded results, no key stands twice in a
bucket, and a live entry keeps its result unless it gives way (`performAll_integrity`); a key whose
results were all recorded some searches ago, but not a multiple of 256, is never settled by a
look-up (`probe_open_of_stale`). After exactly 256 searches an old result settles its key again
(`not_forall_probe_open_of_earlier_search`).
-/

set_option autoImplicit false

namespace Morris.Table

/-! ## Runs -/

/-- An operation on a table. -/
inductive Operation where
  | save (key : Key) (depth : Int) (bound : Option Bound) (value : Int) (move : Move)
  | probe (key : Key) (depth alpha beta : Int)
  | nextGeneration
  | clear
  deriving DecidableEq

/-- The table after an operation; looking a key up changes nothing. -/
def perform (t : Table) : Operation → Table
  | .save key depth bound value move => t.save key depth bound value move
  | .probe _ _ _ _ => t
  | .nextGeneration => t.nextGeneration
  | .clear => t.clear

/-- The table after a run of operations. -/
def performAll (t : Table) (ops : List Operation) : Table := ops.foldl perform t

/-- A result as it is recorded. -/
structure Result where
  key : Key
  depth : Int
  bound : Bound
  value : Int
  move : Move

/-- The operation that records a result. -/
def Result.save (r : Result) : Operation := .save r.key r.depth (some r.bound) r.value r.move

/-- A run has recorded a result and not forgotten it since, and has begun `n` searches after it. -/
def Recorded (ops : List Operation) (n : Nat) (r : Result) : Prop :=
  ∃ before after, ops = before ++ r.save :: after ∧ .clear ∉ after ∧
    after.count .nextGeneration = n

variable {ops past : List Operation} {t : Table}

theorem recorded_append_save (ops : List Operation) (r : Result) :
    Recorded (ops ++ [r.save]) 0 r :=
  ⟨ops, [], rfl, List.not_mem_nil, rfl⟩

theorem Recorded.append {n : Nat} {r : Result} (h : Recorded ops n r) {op : Operation}
    (hclear : op ≠ .clear) :
    Recorded (ops ++ [op]) (n + if op = .nextGeneration then 1 else 0) r := by
  obtain ⟨before, after, rfl, hkept, rfl⟩ := h
  refine ⟨before, after ++ [op], by simp, ?_, ?_⟩
  · rw [List.mem_append, List.mem_singleton, not_or]
    exact ⟨hkept, fun h => hclear h.symm⟩
  · rw [List.count_append, List.count_singleton]
    simp only [beq_iff_eq]

theorem recorded_cons_iff {op : Operation} {n : Nat} {r : Result} :
    Recorded (op :: ops) n r ↔
      (op = r.save ∧ .clear ∉ ops ∧ ops.count .nextGeneration = n) ∨ Recorded ops n r := by
  constructor
  · rintro ⟨before, after, heq, hkept, hcount⟩
    cases before with
    | nil =>
        obtain ⟨rfl, rfl⟩ := List.cons.inj heq
        exact Or.inl ⟨rfl, hkept, hcount⟩
    | cons first before =>
        obtain ⟨rfl, rfl⟩ := List.cons.inj heq
        exact Or.inr ⟨before, after, rfl, hkept, hcount⟩
  · rintro (⟨rfl, hkept, hcount⟩ | ⟨before, after, rfl, hkept, hcount⟩)
    · exact ⟨[], ops, rfl, hkept, hcount⟩
    · exact ⟨op :: before, after, rfl, hkept, hcount⟩

theorem Recorded.mem {n : Nat} {r : Result} (h : Recorded ops n r) : r.save ∈ ops := by
  obtain ⟨before, after, rfl, -⟩ := h
  exact List.mem_append_right before List.mem_cons_self

/-- When only searches have begun since a result was recorded, each of them counts. -/
theorem recorded_turns {turns n : Nat} {r r' : Result}
    (h : Recorded (r.save :: List.replicate turns .nextGeneration) n r') : n = turns := by
  rcases recorded_cons_iff.1 h with ⟨-, -, hcount⟩ | hlater
  · rw [← hcount, List.count_replicate_self]
  · exact absurd (List.eq_of_mem_replicate hlater.mem) (by nofun)

/-! ## Where entries come from -/

/-- An entry comes from results that a run has recorded for its key, and its generation tells how
many searches have begun since. -/
structure Entry.From (ops : List Operation) (generation : UInt8) (e : Entry) : Prop where
  result : ∃ n move, Recorded ops n ⟨e.key, e.depth, e.bound, e.value, move⟩ ∧
    e.generation + UInt8.ofNat n = generation
  move : ∃ n d bound value, Recorded ops n ⟨e.key, d, bound, value, e.move⟩

/-- After another operation that forgets nothing the entry still comes from the run. -/
theorem Entry.From.append {generation : UInt8} {e : Entry} (h : e.From ops generation)
    {op : Operation} (hclear : op ≠ .clear) :
    e.From (ops ++ [op]) (generation + if op = .nextGeneration then 1 else 0) := by
  obtain ⟨⟨n, move, hrecorded, rfl⟩, m, d, bound, value, hmove⟩ := h
  refine ⟨⟨_, move, hrecorded.append hclear, ?_⟩, _, d, bound, value, hmove.append hclear⟩
  split
  · rw [UInt8.ofNat_add, UInt8.add_assoc]
    rfl
  · simp

/-- What a run from an empty table keeps of its buckets: no key stands twice, and every entry comes
from recorded results. -/
structure Kept (ops : List Operation) (t : Table) : Prop where
  distinct : ∀ address, (t.bucketAt address).Distinct
  origin : ∀ address slot e, (t.bucketAt address).get slot = some e → e.From ops t.generation

theorem kept_of_stored_eq_empty (h : t.stored = {}) : Kept ops t := by
  constructor
  · intro address
    rw [bucketAt_of_stored_eq_empty h]
    exact Bucket.distinct_empty
  · intro address slot e he
    rw [bucketAt_of_stored_eq_empty h] at he
    cases slot <;> cases he

theorem Kept.save (h : Kept past t) (r : Result) :
    Kept (past ++ [r.save]) (t.save r.key r.depth (some r.bound) r.value r.move) := by
  constructor
  · intro address
    rw [bucketAt_save]
    split
    · exact (h.distinct address).offer _
    · exact h.distinct address
  · intro address slot e he
    have hkept : ∀ old, (t.bucketAt address).get slot = some old →
        old.From (past ++ [r.save]) t.generation := by
      intro old hold
      have hclear : r.save ≠ .clear := by nofun
      simpa [Result.save] using (h.origin address slot old hold).append hclear
    rw [bucketAt_save] at he
    split at he
    · rcases ((t.bucketAt address).offered_offer _).get he with rfl | ⟨old, hold, rfl | ⟨hkey, rfl⟩⟩
      · -- the new entry is the result just recorded
        have hnow := recorded_append_save past r
        exact ⟨⟨0, r.move, hnow, UInt8.add_zero _⟩, 0, r.depth, r.bound, r.value, hnow⟩
      · exact hkept e hold
      · -- an entry that borrows the move of the result keeps its own origin
        obtain ⟨hresult, _⟩ := hkept old hold
        refine ⟨hresult, 0, r.depth, r.bound, r.value, ?_⟩
        rw [show old.key = r.key from hkey]
        exact recorded_append_save past r
    · exact hkept e he

theorem Kept.perform (h : Kept past t) (op : Operation) : Kept (past ++ [op]) (t.perform op) := by
  have hidle : op ≠ .clear → op ≠ .nextGeneration → Kept (past ++ [op]) t := by
    intro hclear hnext
    refine ⟨h.distinct, fun address slot e he => ?_⟩
    simpa [hnext] using (h.origin address slot e he).append hclear
  cases op with
  | save key depth bound value move =>
      cases bound with
      | none => exact hidle (by nofun) (by nofun)
      | some bound => exact h.save ⟨key, depth, bound, value, move⟩
  | probe key depth alpha beta => exact hidle (by nofun) (by nofun)
  | nextGeneration =>
      exact ⟨h.distinct, fun address slot e he => (h.origin address slot e he).append (by nofun)⟩
  | clear => exact kept_of_stored_eq_empty rfl

theorem Kept.performAll (h : Kept past t) (ops : List Operation) :
    Kept (past ++ ops) (t.performAll ops) := by
  induction ops generalizing past t with
  | nil =>
      rw [List.append_nil]
      exact h
  | cons op ops ih =>
      have hstep := ih (h.perform op)
      rwa [List.append_assoc] at hstep

/-- Every run from a new table keeps it in order. -/
theorem kept_performAll (shards buckets : Nat) (ops : List Operation) :
    Kept ops ((new shards buckets).performAll ops) := by
  have hnew : Kept [] (new shards buckets) := kept_of_stored_eq_empty rfl
  exact hnew.performAll ops

/-! ## Looking up -/

/-- What an entry makes of a window. -/
inductive Entry.Narrowing (e : Entry) (alpha beta : Int) : Probe → Prop
  | settled : e.bound = .exact → Narrowing e alpha beta ⟨some e.value, alpha, beta, e.move⟩
  /-- The bound lies outside the window on the side where it says nothing. -/
  | idle : Narrowing e alpha beta ⟨none, alpha, beta, e.move⟩
  | raised : e.bound = .lower → alpha < e.value →
      Narrowing e alpha beta ⟨if beta ≤ e.value then some e.value else none, e.value, beta, e.move⟩
  | lowered : e.bound = .upper → e.value < beta →
      Narrowing e alpha beta
        ⟨if e.value ≤ alpha then some e.value else none, alpha, e.value, e.move⟩

theorem Entry.narrowing_narrow (e : Entry) {alpha beta : Int} (hinside : alpha < beta) :
    e.Narrowing alpha beta (e.narrow alpha beta) := by
  simp only [Entry.narrow]
  cases hbound : e.bound with
  | exact => exact .settled hbound
  | lower =>
      rcases Int.lt_or_le alpha e.value with habove | hbelow
      · simp only [Int.max_eq_right (Int.le_of_lt habove)]
        exact .raised hbound habove
      · simp only [Int.max_eq_left hbelow, if_neg (Int.not_le.2 hinside)]
        exact .idle
  | upper =>
      rcases Int.lt_or_le e.value beta with hbelow | habove
      · simp only [Int.min_eq_right (Int.le_of_lt hbelow)]
        exact .lowered hbound hbelow
      · simp only [Int.min_eq_left habove, if_neg (Int.not_le.2 hinside)]
        exact .idle

/-- A look-up tells nothing or what an entry of the key tells that is deep enough and of the current
generation. -/
inductive Look (t : Table) (key : Key) (depth alpha beta : Int) : Probe → Prop
  | missed : Look t key depth alpha beta ⟨none, alpha, beta, .none⟩
  | hinted {slot : Slot} {e : Entry} : (t.bucketAt (t.address key)).get slot = some e →
      e.key = key → Look t key depth alpha beta ⟨none, alpha, beta, e.move⟩
  | told {slot : Slot} {e : Entry} : (t.bucketAt (t.address key)).get slot = some e →
      e.key = key → e.generation = t.generation → depth ≤ e.depth →
      Look t key depth alpha beta (e.narrow alpha beta)

theorem look_probe (t : Table) (key : Key) (depth alpha beta : Int) :
    t.Look key depth alpha beta (t.probe key depth alpha beta) := by
  simp only [probe]
  split
  · exact .missed
  · rename_i e he
    obtain ⟨hkey, slot, hslot⟩ := Bucket.find?_spec he
    split
    · exact .hinted hslot hkey
    · rename_i hlive
      rw [not_or, Decidable.not_not, Int.not_lt] at hlive
      exact .told hslot hkey hlive.1 hlive.2

/-! ## What a look-up tells -/

/-- A result of a key that a run has recorded and not forgotten, of some depth at least. It may
settle its key only if the searches begun since are a multiple of 256. -/
def Backing (ops : List Operation) (key : Key) (depth : Int) (bound : Bound) (value : Int) : Prop :=
  ∃ n d move, Recorded ops n ⟨key, d, bound, value, move⟩ ∧ 256 ∣ n ∧ depth ≤ d

/-- What a look-up tells is backed by results that a run has recorded for the key. -/
structure Probe.Backed (ops : List Operation) (key : Key) (depth alpha beta : Int) (p : Probe) :
    Prop where
  /-- A value settles the position if it is exact, or if it bounds the true one from below at the
  upper end of the window or from above at the lower end. -/
  settled : ∀ v, p.cutoff = some v →
    (Backing ops key depth .exact v ∧ p.alpha = alpha ∧ p.beta = beta) ∨
      (Backing ops key depth .lower v ∧ p.alpha = v ∧ p.beta = beta ∧ beta ≤ v) ∨
      (Backing ops key depth .upper v ∧ p.alpha = alpha ∧ p.beta = v ∧ v ≤ alpha)
  raised : p.alpha ≠ alpha → alpha < p.alpha ∧ Backing ops key depth .lower p.alpha
  lowered : p.beta ≠ beta → p.beta < beta ∧ Backing ops key depth .upper p.beta
  move : p.move ≠ .none → ∃ n d bound value, Recorded ops n ⟨key, d, bound, value, p.move⟩

/-- An entry of the current generation was recorded a multiple of 256 searches ago. -/
theorem Entry.From.backing {generation : UInt8} {e : Entry} (h : e.From ops generation)
    (hlive : e.generation = generation) {depth : Int} (hdepth : depth ≤ e.depth) :
    Backing ops e.key depth e.bound e.value := by
  obtain ⟨⟨n, move, hrecorded, hcount⟩, -⟩ := h
  refine ⟨n, e.depth, move, hrecorded, ?_, hdepth⟩
  rw [hlive] at hcount
  have hzero : UInt8.ofNat n = 0 := UInt8.add_eq_left.1 hcount
  have hnat := congrArg UInt8.toNat hzero
  rw [UInt8.toNat_ofNat'] at hnat
  exact Nat.dvd_of_mod_eq_zero hnat

theorem Probe.backed_of_narrowing {e : Entry} {depth alpha beta : Int} {p : Probe}
    (h : e.Narrowing alpha beta p) (hbacking : Backing ops e.key depth e.bound e.value)
    (hmove : ∃ n d bound value, Recorded ops n ⟨e.key, d, bound, value, e.move⟩) :
    p.Backed ops e.key depth alpha beta := by
  cases h with
  | settled hbound =>
      rw [hbound] at hbacking
      refine ⟨?_, fun h => absurd rfl h, fun h => absurd rfl h, fun _ => hmove⟩
      rintro v ⟨⟩
      exact Or.inl ⟨hbacking, rfl, rfl⟩
  | idle => exact ⟨nofun, fun h => absurd rfl h, fun h => absurd rfl h, fun _ => hmove⟩
  | raised hbound habove =>
      rw [hbound] at hbacking
      refine ⟨?_, fun _ => ⟨habove, hbacking⟩, fun h => absurd rfl h, fun _ => hmove⟩
      intro v hv
      obtain ⟨hclosed, ⟨⟩⟩ := Option.ite_none_right_eq_some.1 hv
      exact Or.inr (Or.inl ⟨hbacking, rfl, rfl, hclosed⟩)
  | lowered hbound hbelow =>
      rw [hbound] at hbacking
      refine ⟨?_, fun h => absurd rfl h, fun _ => ⟨hbelow, hbacking⟩, fun _ => hmove⟩
      intro v hv
      obtain ⟨hclosed, ⟨⟩⟩ := Option.ite_none_right_eq_some.1 hv
      exact Or.inr (Or.inr ⟨hbacking, rfl, rfl, hclosed⟩)

theorem Kept.backed_probe (h : Kept ops t) (key : Key) (depth : Int) {alpha beta : Int}
    (hinside : alpha < beta) :
    (t.probe key depth alpha beta).Backed ops key depth alpha beta := by
  have hlook := t.look_probe key depth alpha beta
  generalize t.probe key depth alpha beta = p at hlook
  cases hlook with
  | missed => exact ⟨nofun, fun h => absurd rfl h, fun h => absurd rfl h, fun h => absurd rfl h⟩
  | @hinted slot e hslot hkey =>
      subst hkey
      exact ⟨nofun, fun h => absurd rfl h, fun h => absurd rfl h,
        fun _ => (h.origin _ _ _ hslot).move⟩
  | @told slot e hslot hkey hlive hdepth =>
      subst hkey
      have hfrom := h.origin _ _ _ hslot
      exact Probe.backed_of_narrowing (e.narrowing_narrow hinside) (hfrom.backing hlive hdepth)
        hfrom.move

/-! ## One result -/

theorem performAll_turns (t : Table) (n : Nat) :
    t.performAll (List.replicate n .nextGeneration) =
      { t with generation := t.generation + UInt8.ofNat n } := by
  induction n generalizing t with
  | zero => simp [performAll]
  | succ n ih =>
      have hstep := ih t.nextGeneration
      rw [List.replicate_succ]
      refine hstep.trans ?_
      simp only [nextGeneration, UInt8.ofNat_add, UInt8.add_assoc]
      rw [UInt8.add_comm (UInt8.ofNat n)]
      rfl

/-- The entry of a result that the first search of a table records. -/
def Result.entry (r : Result) : Entry := ⟨r.key, r.value, r.depth, r.bound, r.move, 0⟩

/-- The first result that a table records takes the first slot of its bucket. -/
theorem bucketAt_save_new (shards buckets : Nat) (r : Result) :
    ((new shards buckets).performAll [r.save]).bucketAt ((new shards buckets).address r.key) =
      { first := some r.entry } := by
  show ((new shards buckets).save r.key r.depth (some r.bound) r.value r.move).bucketAt _ = _
  rw [bucketAt_save, if_pos rfl, bucketAt_of_stored_eq_empty rfl]
  rfl

/-- The only result that a table holds settles its key again and again, each time that the searches
begun since have come to a multiple of 256. -/
theorem probe_after_turns (shards buckets n : Nat) (r : Result) (depth alpha beta : Int) :
    ((new shards buckets).performAll (r.save :: List.replicate n .nextGeneration)).probe r.key depth
        alpha beta =
      if 256 ∣ n ∧ depth ≤ r.depth then r.entry.narrow alpha beta
      else ⟨none, alpha, beta, r.move⟩ := by
  have hrun : (new shards buckets).performAll (r.save :: List.replicate n .nextGeneration) =
      { (new shards buckets).performAll [r.save] with generation := 0 + UInt8.ofNat n } :=
    performAll_turns ((new shards buckets).performAll [r.save]) n
  have hbucket : ({ (new shards buckets).performAll [r.save] with
      generation := 0 + UInt8.ofNat n }.bucketOf r.key) = { first := some r.entry } :=
    bucketAt_save_new shards buckets r
  have hfind : ({ first := some r.entry } : Bucket).find? r.key = some r.entry := by
    simp [Bucket.find?, Bucket.slotOf?, Bucket.get, Result.entry]
  -- the generation comes back to that of the entry after each 256 searches
  have hturn : r.entry.generation = 0 + UInt8.ofNat n ↔ 256 ∣ n := by
    show (0 : UInt8) = 0 + UInt8.ofNat n ↔ 256 ∣ n
    rw [UInt8.zero_add, eq_comm, ← UInt8.toNat_inj, UInt8.toNat_ofNat']
    exact Nat.dvd_iff_mod_eq_zero.symm
  simp only [hrun, probe, hbucket, hfind, ne_eq, hturn]
  by_cases hlive : 256 ∣ n ∧ depth ≤ r.depth
  · rw [if_pos hlive, if_neg]
    rw [not_or, Decidable.not_not, Int.not_lt]
    exact hlive
  · rw [if_neg hlive, if_pos]
    · rfl
    · rw [← Int.not_le, ← Decidable.not_and_iff_not_or_not]
      exact hlive

/-! ## Integrity -/

/-- Whatever is recorded next, an entry of the current generation keeps all but its move, unless it
gives way. -/
theorem keeps_save (t : Table) {address : Nat × Nat} {slot : Slot} {e : Entry}
    (he : (t.bucketAt address).get slot = some e) (hlive : e.generation = t.generation) (key : Key)
    (depth : Int) (bound : Option Bound) (value : Int) (move : Move) :
    (∃ kept, ((t.save key depth bound value move).bucketAt address).get slot =
      some { e with move := kept }) ∨
      ∃ b, bound = some b ∧ e.givesWayTo depth b = true := by
  cases bound with
  | none => exact Or.inl ⟨e.move, he⟩
  | some b =>
      rw [bucketAt_save]
      split
      · refine (((t.bucketAt address).offered_offer
          ⟨key, value, depth, b, move, t.generation⟩).keeps he hlive).imp_right fun hgives => ?_
        exact ⟨b, rfl, hgives⟩
      · exact Or.inl ⟨e.move, he⟩

/-- In every run from a new table: no bucket holds two entries of one key; what a look-up tells is
backed by recorded results of the key; and whatever is recorded next, an entry of the current
generation keeps all but its move, unless it is not exact and the new result is, or both are of the
same exactness and the new result is at least as deep. -/
theorem performAll_integrity (shards buckets : Nat) (ops : List Operation) :
    (∀ address, (((new shards buckets).performAll ops).bucketAt address).Distinct) ∧
      (∀ key depth alpha beta, alpha < beta →
        (((new shards buckets).performAll ops).probe key depth alpha beta).Backed ops key depth
          alpha beta) ∧
      ∀ address slot e, (((new shards buckets).performAll ops).bucketAt address).get slot = some e →
        e.generation = ((new shards buckets).performAll ops).generation →
        ∀ key depth bound value move,
          (∃ kept, ((((new shards buckets).performAll ops).save key depth bound value move).bucketAt
            address).get slot = some { e with move := kept }) ∨
          ∃ b, bound = some b ∧ ((e.bound ≠ .exact ∧ b = .exact) ∨
            ((e.bound = .exact ↔ b = .exact) ∧ e.depth ≤ depth)) := by
  have hkept := kept_performAll shards buckets ops
  generalize (new shards buckets).performAll ops = t at hkept
  refine ⟨hkept.distinct, fun key depth alpha beta hinside => hkept.backed_probe key depth hinside,
    ?_⟩
  intro address slot e he hlive key depth bound value move
  refine (t.keeps_save he hlive key depth bound value move).imp_right ?_
  rintro ⟨b, hb, hgives⟩
  exact ⟨b, hb, (e.givesWayTo_iff depth b).1 hgives⟩

/-- An exact result of depth four. -/
def exactResult : Result := ⟨9, 4, .exact, 11, .place 12⟩

/-- The case of an exact result: it settles its key, and a deeper bound does not displace it. -/
theorem performAll_integrity_exact :
    (((new 2 8).performAll [exactResult.save]).probe 9 1 (-20) 20).cutoff = some 11 ∧
      Backing [exactResult.save] 9 1 .exact 11 ∧
      ∃ kept, ((((new 2 8).performAll [exactResult.save]).save 9 6 (some .lower) 13
        (.place 8)).bucketAt ((new 2 8).address 9)).get .first =
          some { exactResult.entry with move := kept } := by
  obtain ⟨-, hbacked, hkeeps⟩ := performAll_integrity 2 8 [exactResult.save]
  have hcutoff : (((new 2 8).performAll [exactResult.save]).probe 9 1 (-20) 20).cutoff =
      some 11 := congrArg Probe.cutoff (probe_after_turns 2 8 0 exactResult 1 (-20) 20)
  have hentry : (((new 2 8).performAll [exactResult.save]).bucketAt
      ((new 2 8).address 9)).get .first = some exactResult.entry :=
    congrArg (Bucket.get · .first) (bucketAt_save_new 2 8 exactResult)
  refine ⟨hcutoff, ?_, ?_⟩
  · rcases (hbacked 9 1 (-20) 20 (by decide)).settled 11 hcutoff with
      ⟨hbacking, -⟩ | ⟨-, -, -, hclosed⟩ | ⟨-, -, -, hclosed⟩
    · exact hbacking
    · exact absurd hclosed (by decide)
    · exact absurd hclosed (by decide)
  · rcases hkeeps _ .first _ hentry rfl 9 6 (some .lower) 13 (.place 8) with
      hkept | ⟨b, hb, ⟨hinexact, -⟩ | ⟨hsame, -⟩⟩
    · exact hkept
    · exact absurd rfl hinexact
    · cases hb
      exact absurd (hsame.1 rfl) (by decide)

/-! ## Old results -/

/-- A key whose recorded results are all from before the last search, and from a number of searches
ago that is no multiple of 256, is not settled by a look-up, which leaves the window as it is. -/
theorem probe_open_of_stale (shards buckets : Nat) (ops : List Operation) (key : Key)
    (hstale : ∀ n d bound value move, Recorded ops n ⟨key, d, bound, value, move⟩ → ¬ 256 ∣ n)
    (depth : Int) {alpha beta : Int} (hinside : alpha < beta) : ∃ move,
      ((new shards buckets).performAll ops).probe key depth alpha beta =
        ⟨none, alpha, beta, move⟩ := by
  have hbacked := (kept_performAll shards buckets ops).backed_probe key depth hinside
  generalize ((new shards buckets).performAll ops).probe key depth alpha beta = p at hbacked
  have hnot : ∀ bound value, ¬ Backing ops key depth bound value := by
    rintro bound value ⟨n, d, move, hrecorded, hturns, -⟩
    exact hstale n d bound value move hrecorded hturns
  have hcutoff : p.cutoff = none := by
    cases hv : p.cutoff with
    | none => rfl
    | some v =>
        rcases hbacked.settled v hv with ⟨h, -⟩ | ⟨h, -⟩ | ⟨h, -⟩ <;> exact absurd h (hnot _ _)
  have halpha : p.alpha = alpha := by
    refine Decidable.byContradiction fun hne => ?_
    exact hnot _ _ (hbacked.raised hne).2
  have hbeta : p.beta = beta := by
    refine Decidable.byContradiction fun hne => ?_
    exact hnot _ _ (hbacked.lowered hne).2
  exact ⟨p.move, by rw [← halpha, ← hbeta, ← hcutoff]⟩

/-- A search later an exact result settles nothing. -/
theorem probe_open_of_stale_next_search :
    (∀ n d bound value move,
      Recorded (exactResult.save :: List.replicate 1 .nextGeneration) n ⟨9, d, bound, value, move⟩ →
        ¬ 256 ∣ n) ∧
    ∃ move, ((new 2 8).performAll (exactResult.save :: List.replicate 1 .nextGeneration)).probe 9 1
      (-20) 20 = ⟨none, -20, 20, move⟩ := by
  have hstale : ∀ n d bound value move,
      Recorded (exactResult.save :: List.replicate 1 .nextGeneration) n ⟨9, d, bound, value, move⟩ →
        ¬ 256 ∣ n := by
    intro n d bound value move hrecorded
    rw [recorded_turns hrecorded]
    decide
  exact ⟨hstale, probe_open_of_stale 2 8 _ 9 hstale 1 (by decide)⟩

/-- It is not so that a key whose results are all from before some search stays open: after 256
searches the old result settles it. -/
theorem not_forall_probe_open_of_earlier_search :
    ¬ ∀ (shards buckets : Nat) (ops : List Operation) (key : Key) (depth alpha beta : Int),
      alpha < beta →
      (∀ n d bound value move, Recorded ops n ⟨key, d, bound, value, move⟩ → 0 < n) →
      ∃ move, ((new shards buckets).performAll ops).probe key depth alpha beta =
        ⟨none, alpha, beta, move⟩ := by
  intro hall
  have hearlier : ∀ n d bound value move,
      Recorded (exactResult.save :: List.replicate 256 .nextGeneration) n
        ⟨exactResult.key, d, bound, value, move⟩ → 0 < n := by
    intro n d bound value move hrecorded
    rw [recorded_turns hrecorded]
    decide
  obtain ⟨move, hopen⟩ := hall 2 8 _ exactResult.key 1 (-20) 20 (by decide) hearlier
  have hsettled := probe_after_turns 2 8 256 exactResult 1 (-20) 20
  rw [hopen, if_pos (by decide)] at hsettled
  cases congrArg Probe.cutoff hsettled

end Morris.Table
