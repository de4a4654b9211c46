import Morris.Proofs.Search.Deepening
import Morris.Proofs.Search.Interleaving

/-!
# What workers leave

A search asks little of a workforce (`Search.Serves`): that the position is the one it was given,
that the entries of the table keep what shallow entries have, and that values come for no moves but
those dealt out. Workers at the same time grant it in whatever order they make their accesses,
because every access grants it by itself: what a worker records is of less depth than the root, and
what it sends is about a move of its own (`Search.Task.Keeping`). It makes no difference at which
point a worker is stopped. So a concurrent workforce serves every search that nothing stops
(`Search.Concurrent.serves`), and one whose workers may be stopped serves all searches
(`Search.Interruptible.serves`).
-/

set_option autoImplicit false

namespace Morris.Search

variable {I : Shared → Prop} {setup : Setup} {flavour : Flavour} {depth limit : Int}
  {moves : List (Nat × Move)} {workers : Nat} {w : Walk} {workforce : Workforce}

/-! ## What the accesses of a task keep -/

/-- Records of less than some depth keep what holds of the shared data. -/
def Savable (I : Shared → Prop) (limit : Int) : Prop :=
  ∀ s key depth bound v move, I s → depth < limit →
    I { s with table := s.table.save key depth (some bound) v move }

namespace Task

/-- A task of which every access keeps what holds of the shared data. -/
inductive Keeping (I : Shared → Prop) {α : Type} : Task α → Prop
  | done (a : α) : Keeping I (.done a)
  | access {act : Shared → Shared} {next : Shared → Task α} :
      (∀ s, I s → I (act s)) → (∀ s, I s → Keeping I (next s)) → Keeping I (.access act next)

/-- A task that keeps a property may be followed by tasks that do. -/
theorem Keeping.bind {α β : Type} {t : Task α} {f : α → Task β} (h : Keeping I t)
    (hf : ∀ a, Keeping I (f a)) : Keeping I (t.bind f) := by
  induction h with
  | done a => exact hf a
  | access hact _ ih => exact .access hact ih

section

variable {task : Searcher} (h : ∀ alpha beta w, Keeping I (task alpha beta w))

include h

theorem keeping_childValue (flips : Bool) (alpha beta : Int) (w : Walk) :
    Keeping I (childValue task flips alpha beta w) := by
  cases flips with
  | false => exact h alpha beta w
  | true => exact (h (-beta) (-alpha) w).bind fun _ => .done _

theorem keeping_scout (flips : Bool) (alpha beta : Int) (w : Walk) :
    Keeping I (scout task flips alpha beta w) := by
  refine (keeping_childValue h flips alpha (alpha + scoutWidth) w).bind fun answer => ?_
  split
  · exact keeping_childValue h flips alpha beta answer.2
  · exact .done answer

theorem keeping_child (flavour : Flavour) (index : Nat) (flips : Bool) (alpha beta : Int)
    (w : Walk) : Keeping I (child flavour task index flips alpha beta w) := by
  rw [child]
  split
  · exact keeping_scout h flips alpha beta w
  · exact keeping_childValue h flips alpha beta w

end

/-- Trying moves keeps what the task of each child does. -/
theorem keeping_tryMoves {child : Nat → Bool → Searcher}
    (h : ∀ i flips alpha beta w, Keeping I (child i flips alpha beta w)) (beta : Int) (i : Nat)
    (rest : List RankedMove) (p : Progress) (w : Walk) :
    Keeping I (tryMoves child beta i rest p w) := by
  induction rest generalizing i p w with
  | nil => exact .done (p, w)
  | cons r rest ih =>
      rw [tryMoves]
      cases w.play? r.move with
      | none => exact ih (i + 1) p w
      | some step =>
          refine (h i step.1 p.alpha beta step.2).bind fun answer => ?_
          simp only
          split
          · exact .done _
          · split
            · split
              · split
                · exact .done _
                · exact ih (i + 1) _ _
              · exact ih (i + 1) _ _
            · exact ih (i + 1) p _

/-- A node that is done saves what may be saved. -/
theorem keeping_finishNode (hsave : Savable I limit) (setup : Setup) (hdepth : depth < limit)
    (alpha beta : Int) (p : Progress) (w : Walk) :
    Keeping I (finishNode setup depth alpha beta p w) := by
  rw [finishNode]
  split
  · exact .done _
  · exact .access (fun s hs => hsave s _ depth _ _ _ hs hdepth) fun _ _ => .done _

theorem keeping_expand (hsave : Savable I limit) (setup : Setup) {child : Nat → Bool → Searcher}
    (h : ∀ i flips alpha beta w, Keeping I (child i flips alpha beta w)) (hdepth : depth < limit)
    (alpha beta : Int) (w : Walk) : Keeping I (expand setup child depth alpha beta w) := by
  simp only [expand]
  split
  · exact .done _
  · split
    · exact .done _
    · exact (keeping_tryMoves h _ 0 _ _ w).bind fun found =>
        keeping_finishNode hsave setup hdepth _ _ found.1 found.2

/-- The search of a node records nothing of more depth than it has. -/
theorem keeping_node (hsave : Savable I limit) (setup : Setup) (flavour : Flavour) {d : Nat}
    (hd : (d : Int) < limit) (alpha beta : Int) (w : Walk) :
    Keeping I (node setup flavour d alpha beta w) := by
  induction d generalizing alpha beta w with
  | zero => exact .done _
  | succ d ih =>
      have hchild := keeping_child (ih (by omega)) flavour
      simp only [node]
      split
      · exact .done _
      · generalize (if isPastMoveLimit (w.visit setup).position = true then 0 else alpha) = low
        split
        · exact .done _
        · split
          · exact .done _
          · exact .access (fun _ hs => hs) fun s _ =>
              keeping_expand hsave setup hchild (by omega) low beta _

/-- So does a descent of any depth below the limit. -/
theorem keeping_descend (hsave : Savable I limit) (setup : Setup) (flavour : Flavour)
    (hdepth : depth < limit) (alpha beta : Int) (w : Walk) :
    Keeping I (descend setup flavour depth alpha beta w) := by
  rw [descend]
  split
  · exact .done _
  · exact keeping_node hsave setup flavour (by omega) alpha beta w

/-- A worker records results below the root and sends values of its moves. -/
theorem keeping_workThrough (hsave : Savable I depth) (setup : Setup) (flavour : Flavour)
    (hsend : ∀ s, ∀ x ∈ moves, ∀ v, I s → I { s with arrived := s.arrived ++ [⟨x.1, x.2, v⟩] })
    (w : Walk) : Keeping I (workThrough setup flavour depth moves w) := by
  induction moves generalizing w with
  | nil => exact .done w
  | cons x rest ih =>
      have hrest := ih fun s y hy => hsend s y (List.mem_cons_of_mem x hy)
      rw [workThrough]
      split
      · exact .done w
      · cases w.play? x.2 with
        | none => exact hrest w
        | some step =>
            refine (keeping_childValue (keeping_descend hsave setup flavour
              (by omega : depth - 1 < depth)) step.1 _ _ step.2).bind fun answer => ?_
            simp only
            split
            · exact .done _
            · exact .access (fun s => hsend s x List.mem_cons_self answer.1) fun _ _ => hrest _

end Task

/-! ## What a run keeps -/

/-- What every access of every task keeps holds at the end of a run. -/
theorem Interleaved.keeps {α : Type} {tasks : List (Task α)} {s last : Shared} {ends : List α}
    (h : Interleaved tasks s ends last) (htasks : ∀ t ∈ tasks, Task.Keeping I t) (hs : I s) :
    I last := by
  induction h with
  | ended _ _ => exact hs
  | @turn before after act next s last ends _ ih =>
      obtain ⟨hbefore, hrest⟩ := List.forall_mem_append.1 htasks
      obtain ⟨htask, hafter⟩ := List.forall_mem_cons.1 hrest
      cases htask with
      | access hact hnext =>
          have hnow := hact s hs
          exact ih (List.forall_mem_append.2
            ⟨hbefore, List.forall_mem_cons.2 ⟨hnext _ hnow, hafter⟩⟩) hnow

/-- What the workers of a root keep: the entries of the table have a property, and all values that
have arrived are of moves dealt out. -/
structure Dealt (P : Table.Entry → Prop) (moves : List (Nat × Move)) (s : Shared) : Prop where
  entries : s.table.All P
  arrived : ∀ v ∈ s.arrived, ∃ x ∈ moves, x.2 = v.move

theorem Dealt.savable {P : Table.Entry → Prop} (hP : Table.Tolerant P limit)
    (moves : List (Nat × Move)) : Savable (Dealt P moves) limit :=
  fun _ _ _ _ _ _ h hdepth =>
    ⟨h.entries.save (fun _ he => he) hP.borrows (hP.shallow _ hdepth), h.arrived⟩

theorem Dealt.send {P : Table.Entry → Prop} {s : Shared} (h : Dealt P moves s) {x : Nat × Move}
    (hx : x ∈ moves) (v : Int) :
    Dealt P moves { s with arrived := s.arrived ++ [⟨x.1, x.2, v⟩] } :=
  ⟨h.entries, List.forall_mem_append.2 ⟨h.arrived, List.forall_mem_singleton.2 ⟨x, hx, rfl⟩⟩⟩

/-- A worker saves tolerable entries and sends moves that it was dealt. -/
theorem keeping_worker {P : Table.Entry → Prop} (hP : Table.Tolerant P depth) (setup : Setup)
    (flavour : Flavour) (moves : List (Nat × Move)) (workers : Nat) (w : Walk)
    (evaluations k : Nat) :
    Task.Keeping (Dealt P moves) (worker setup flavour depth moves workers w evaluations k) :=
  .access (fun _ hs => hs) fun _ _ =>
    Task.keeping_workThrough (Dealt.savable hP moves) setup flavour
      (fun _ _ hx v hs => hs.send (List.mem_filter.1 hx).1 v) _

/-- Whatever a run of the workers leaves, it is back where it was, and the values are of moves dealt
out. -/
theorem GathersUntilStopped.serves {found : List MoveValue × Walk}
    (h : GathersUntilStopped setup flavour depth moves workers w found) :
    (∀ {P : Table.Entry → Prop}, Table.Tolerant P depth → Back P w found.2) ∧
      ∀ v ∈ found.1, ∃ x ∈ moves, x.2 = v.move := by
  obtain ⟨stops, evaluations, ends, last, count, stopped, hrun, _, rfl⟩ := h
  have hlast : ∀ {P : Table.Entry → Prop}, Table.Tolerant P depth → w.table.All P →
      Dealt P moves last := by
    intro P hP hall
    refine hrun.keeps (fun t ht => ?_) ⟨hall, List.forall_mem_nil _⟩
    obtain ⟨k, _, rfl⟩ := List.mem_map.1 ht
    exact keeping_worker hP _ flavour moves workers _ _ k
  exact ⟨fun hP => ⟨rfl, rfl, fun hall => (hlast hP hall).entries⟩,
    (hlast (tolerant_any depth) fun _ _ _ _ _ _ => trivial).arrived⟩

/-- A run that nothing stops is one that may be stopped. -/
theorem Gathers.untilStopped {found : List MoveValue × Walk}
    (h : Gathers setup flavour depth moves workers w found) (hgoing : w.stopped = false) :
    GathersUntilStopped setup flavour depth moves workers w found := by
  obtain ⟨evaluations, ends, last, count, hrun, rfl⟩ := h
  have hstart : { w with stopped := false } = w := by rw [← hgoing]
  refine ⟨fun _ => ⟨false, setup.stopAt, setup.evaluator.stopAfter⟩, evaluations, ends, last, count,
    _, ?_, id, rfl⟩
  show Interleaved ((List.range workers).map fun k =>
    worker setup flavour depth moves workers { w with stopped := false } (evaluations k) k) _ _ _
  rw [hstart]
  exact hrun

/-- An interruptible workforce serves every search. -/
theorem Interruptible.serves (h : Interruptible workforce) (setup : Setup) :
    Serves workforce setup :=
  fun flavour depth moves workers w hgoing =>
    (h setup flavour depth moves workers w hgoing).serves

/-- A concurrent workforce serves a search that nothing stops. -/
theorem Concurrent.serves (h : Concurrent workforce) (hsetup : setup.Undisturbed) :
    Serves workforce setup := by
  intro flavour depth moves workers w hgoing
  have hintime := hsetup.inTime
  rw [Setup.isHurried, Bool.or_eq_false_iff, Option.isSome_eq_false_iff] at hintime
  exact ((h setup flavour depth moves workers w hsetup.unlimited hintime.1
    (by simpa using hintime.2) hgoing).untilStopped hgoing).serves

/-- Workers at the same time serve every search that nothing stops, and if they may be stopped,
every search. -/
theorem serves_of_runs (h : Concurrent workforce ∧ setup.Undisturbed ∨ Interruptible workforce) :
    Serves workforce setup := by
  rcases h with ⟨hconcurrent, hsetup⟩ | hstops
  · exact hconcurrent.serves hsetup
  · exact hstops.serves setup

end Morris.Search
