import Morris.Proofs.Search.Choice
import Morris.Search.Interleaving

/-!
# Workers in turn

The searches that are told as tasks are those of the model: run alone, a task comes to what the
search comes to (`Task.alone_descend`, `Task.alone_workThrough`). So workers that work one after
another, as they do in the model, are one of the runs of workers at the same time
(`Search.concurrent_inTurn`).
-/

set_option autoImplicit false

namespace Morris.Search

namespace Task

theorem alone_bind {α β : Type} (t : Task α) (f : α → Task β) (s : Shared) :
    (t.bind f).alone s = (f (t.alone s).1).alone (t.alone s).2 := by
  induction t generalizing s with
  | done a => rfl
  | access act next ih => exact ih (act s) (act s)

/-! ## Tasks that mirror a search -/

/-- A relation between tasks that begin with a table and their results, which a task has that is
done and which carries over from one task to the next. -/
structure Lawful (R : ∀ {β : Type}, Task (β × Walk) → Table → β × Walk → Prop) : Prop where
  done : ∀ {β : Type} (r : β × Walk), R (.done r) r.2.table r
  bind : ∀ {β γ : Type} {t : Task (β × Walk)} {f : β × Walk → Task (γ × Walk)} {table : Table}
    {r : β × Walk} {r' : γ × Walk}, R t table r → R (f r) r.2.table r' → R (t.bind f) table r'

/-- The task is done at once. -/
theorem lawful_done : Lawful fun {_} t _ r => t = .done r where
  done _ := rfl
  bind h h' := by
    subst h
    exact h'

/-- The task comes to the result if it runs alone. -/
theorem lawful_alone : Lawful fun {_} t table r =>
    ∀ arrived, t.alone ⟨table, arrived⟩ = (r, ⟨r.2.table, arrived⟩) where
  done _ _ := rfl
  bind h h' arrived := by
    rw [alone_bind, h arrived]
    exact h' arrived

section

variable {R : ∀ {β : Type}, Task (β × Walk) → Table → β × Walk → Prop} (hR : Lawful R)
  {task : Searcher} {search : Search.Searcher}

include hR

theorem Lawful.childValue (h : ∀ alpha beta w, R (task alpha beta w) w.table (search alpha beta w))
    (flips : Bool) (alpha beta : Int) (w : Walk) :
    R (childValue task flips alpha beta w) w.table
      (Search.childValue search flips alpha beta w) := by
  cases flips with
  | false => exact h alpha beta w
  | true => exact hR.bind (h (-beta) (-alpha) w) (hR.done _)

theorem Lawful.scout (h : ∀ alpha beta w, R (task alpha beta w) w.table (search alpha beta w))
    (flips : Bool) (alpha beta : Int) (w : Walk) :
    R (scout task flips alpha beta w) w.table (Search.scout search flips alpha beta w) := by
  refine hR.bind (hR.childValue h flips alpha (alpha + scoutWidth) w) ?_
  simp only [Search.scout]
  split
  · exact hR.childValue h flips alpha beta _
  · exact hR.done _

theorem Lawful.child (h : ∀ alpha beta w, R (task alpha beta w) w.table (search alpha beta w))
    (flavour : Flavour) (index : Nat) (flips : Bool) (alpha beta : Int) (w : Walk) :
    R (child flavour task index flips alpha beta w) w.table
      (Search.child flavour search index flips alpha beta w) := by
  simp only [Task.child, Search.child]
  split
  · exact hR.scout h flips alpha beta w
  · exact hR.childValue h flips alpha beta w

theorem Lawful.tryMoves {child : Nat → Bool → Searcher} {child' : Nat → Bool → Search.Searcher}
    (h : ∀ i flips alpha beta w,
      R (child i flips alpha beta w) w.table (child' i flips alpha beta w))
    (beta : Int) (i : Nat) (rest : List RankedMove) (p : Progress) (w : Walk) :
    R (tryMoves child beta i rest p w) w.table (Search.tryMoves child' beta i rest p w) := by
  induction rest generalizing i p w with
  | nil => exact hR.done (p, w)
  | cons r rest ih =>
      rw [Task.tryMoves, Search.tryMoves]
      cases hplay : w.play? r.move with
      | none => exact ih (i + 1) p w
      | some step =>
          obtain ⟨flips, played⟩ := step
          have hplayed := h i flips p.alpha beta played
          rw [table_of_play hplay] at hplayed
          refine hR.bind hplayed ?_
          simp only
          generalize child' i flips p.alpha beta played = answer
          rw [← table_takeBack]
          -- the loop ends here or goes on from the walk that has taken the move back
          split
          · exact hR.done (p, _)
          · split
            · split
              · split
                · exact hR.done _
                · exact ih (i + 1) _ _
              · exact ih (i + 1) _ _
            · exact ih (i + 1) p _

end

/-! ## Tasks that run alone -/

theorem alone_finishNode (setup : Setup) (depth alpha beta : Int) (p : Progress) (w : Walk)
    (arrived : List MoveValue) :
    let finished := Search.finishNode setup depth alpha beta p w
    (finishNode setup depth alpha beta p w).alone ⟨w.table, arrived⟩ =
      (finished, ⟨finished.2.table, arrived⟩) := by
  simp only [Task.finishNode]
  split
  · rename_i hstopped
    simp only [alone, Search.finishNode, hstopped, if_true]
    split <;> rfl
  · rename_i hgoing
    rw [finishNode_of_going (eq_false_of_ne_true hgoing)]
    rfl

theorem alone_expand (setup : Setup) {child : Nat → Bool → Searcher}
    {child' : Nat → Bool → Search.Searcher}
    (h : ∀ i flips alpha beta w arrived, (child i flips alpha beta w).alone ⟨w.table, arrived⟩ =
      (child' i flips alpha beta w, ⟨(child' i flips alpha beta w).2.table, arrived⟩))
    (depth alpha beta : Int) (w : Walk) (arrived : List MoveValue) :
    let answer := Search.expand setup child' depth alpha beta w
    (expand setup child depth alpha beta w).alone ⟨w.table, arrived⟩ =
      (answer, ⟨answer.2.table, arrived⟩) := by
  simp only [Task.expand, Search.expand]
  generalize w.table.probe w.position.state.key depth alpha beta = probe
  cases probe.cutoff with
  | some v => rfl
  | none =>
      simp only
      split
      · rfl
      · rw [alone_bind, lawful_alone.tryMoves h]
        exact alone_finishNode setup depth _ _ _ _ arrived

/-- Run alone, the search of a node comes to what the search of the model comes to. -/
theorem alone_node (setup : Setup) (flavour : Flavour) (d : Nat) (alpha beta : Int) (w : Walk)
    (arrived : List MoveValue) :
    let answer := Search.node setup flavour d alpha beta w
    (node setup flavour d alpha beta w).alone ⟨w.table, arrived⟩ =
      (answer, ⟨answer.2.table, arrived⟩) := by
  induction d generalizing alpha beta w arrived with
  | zero => simp only [Task.node, Search.node, alone, table_horizon]
  | succ d ih =>
      simp only [Task.node, Search.node]
      split
      · rfl
      · generalize (if isPastMoveLimit (w.visit setup).position = true then 0 else alpha) = low
        split
        · rfl
        · split
          · rfl
          · exact alone_expand setup (fun i flips => lawful_alone.child ih flavour i flips) _ low
              beta (w.visit setup) arrived

theorem alone_descend (setup : Setup) (flavour : Flavour) (depth alpha beta : Int) (w : Walk)
    (arrived : List MoveValue) :
    let answer := Search.descend setup flavour depth alpha beta w
    (descend setup flavour depth alpha beta w).alone ⟨w.table, arrived⟩ =
      (answer, ⟨answer.2.table, arrived⟩) := by
  simp only [Task.descend, Search.descend]
  split
  · simp only [alone, table_horizon]
  · exact alone_node setup flavour depth.toNat alpha beta w arrived

/-- Run alone, a worker sends the values that the worker of the model finds, after those that have
arrived before. -/
theorem alone_workThrough (setup : Setup) (flavour : Flavour) (depth : Int)
    (moves : List (Nat × Move)) (w : Walk) (arrived : List MoveValue) :
    let found := Search.workThrough setup flavour depth moves w
    (workThrough setup flavour depth moves w).alone ⟨w.table, arrived⟩ =
      (found.2, ⟨found.2.table, arrived ++ found.1⟩) := by
  induction moves generalizing w arrived with
  | nil => simp [Task.workThrough, Search.workThrough, alone]
  | cons x rest ih =>
      obtain ⟨i, m⟩ := x
      simp only [Task.workThrough, Search.workThrough]
      split
      · simp [alone]
      · cases hplay : w.play? m with
        | none => exact ih w arrived
        | some step =>
            obtain ⟨flips, played⟩ := step
            simp only
            rw [← table_of_play hplay, alone_bind,
              lawful_alone.childValue (alone_descend setup flavour (depth - 1))]
            simp only
            generalize Search.childValue (Search.descend setup flavour (depth - 1)) flips
              (-infinite) infinite played = answer
            rw [← table_takeBack]
            split
            · simp [alone]
            · rw [alone, ih]
              simp

end Task

/-! ## Runs -/

section

variable {α : Type}

/-- A task may run to its end before another one makes an access. -/
theorem interleaved_alone {before after : List (Task α)} (t : Task α) {s last : Shared}
    {ends : List α}
    (h : Interleaved (before ++ .done (t.alone s).1 :: after) (t.alone s).2 ends last) :
    Interleaved (before ++ t :: after) s ends last := by
  induction t generalizing s with
  | done a => exact h
  | access act next ih => exact .turn (ih (act s) h)

/-- Run tasks to their ends one after another. -/
def runAll : List (Task α) → Shared → List α × Shared
  | [], s => ([], s)
  | t :: rest, s =>
      let first := t.alone s
      let others := runAll rest first.2
      (first.1 :: others.1, others.2)

theorem interleaved_runAll (tasks : List (Task α)) (ended : List α) (s : Shared) :
    Interleaved (ended.map .done ++ tasks) s (ended ++ (runAll tasks s).1) (runAll tasks s).2 := by
  induction tasks generalizing ended s with
  | nil => simpa [runAll] using Interleaved.ended ended s
  | cons t rest ih =>
      apply interleaved_alone
      simpa [runAll] using ih (ended ++ [(t.alone s).1]) (t.alone s).2

end

/-! ## The workers of the model -/

variable {setup : Setup} {flavour : Flavour} {depth : Int} {moves : List (Nat × Move)}
  {workers : Nat} {base w : Walk}

theorem restored_workThrough (setup : Setup) (flavour : Flavour) (depth : Int)
    (moves : List (Nat × Move)) (w : Walk) :
    Restored w (workThrough setup flavour depth moves w).2 := by
  induction moves generalizing w with
  | nil => exact .refl w
  | cons x rest ih =>
      rw [workThrough]
      split
      · exact .refl w
      · cases hplay : w.play? x.2 with
        | none => exact ih w
        | some step =>
            have hback := (Back.of_play hplay (keeps_childValue (comesBack_descend setup
              (tolerant_any depth) flavour (by omega : depth - 1 < depth)) step.1 (-infinite)
              infinite step.2)).restored
            simp only
            split
            · exact hback
            · exact hback.trans (ih _)

theorem workThrough_goesOn (hsetup : setup.Undisturbed) (hgoing : w.stopped = false) :
    (workThrough setup flavour depth moves w).2.stopped = false := by
  have hframing := framing_goesOn hsetup
  induction moves generalizing w with
  | nil => exact hgoing
  | cons x rest ih =>
      rw [workThrough, if_neg (by simp [hgoing])]
      cases hplay : w.play? x.2 with
      | none => exact ih hgoing
      | some step =>
          have hback := hframing.play hplay (keeps_childValue
            (goesOn_descend hsetup flavour (depth - 1)) step.1 (-infinite) infinite step.2) hgoing
          simp only [hback, Bool.false_eq_true, if_false]
          exact ih hback

theorem dealOut_goesOn (hsetup : setup.Undisturbed) (turns : List Nat)
    (hgoing : w.stopped = false) :
    (dealOut setup flavour depth moves workers turns w).2.stopped = false := by
  induction turns generalizing w with
  | nil => exact hgoing
  | cons k rest ih =>
      exact ih (workThrough_goesOn (w := { w with nodes := 0 }) hsetup hgoing)

/-- A search that has been stopped stays so. -/
theorem stopped_workThrough (h : w.stopped = true) :
    (workThrough setup flavour depth moves w).2.stopped = true := by
  cases moves with
  | nil => exact h
  | cons x rest =>
      rw [workThrough, if_pos h]
      exact h

/-- A worker that runs alone from where the workers before it have left off. -/
theorem alone_worker (hplace : Restored base w) (k : Nat) (arrived : List MoveValue) :
    let found := workThrough setup flavour depth (moves.filter fun m => m.1 % workers == k)
      { w with nodes := 0 }
    (worker setup flavour depth moves workers { base with stopped := w.stopped } w.evaluations
        k).alone ⟨w.table, arrived⟩ =
      (found.2, ⟨found.2.table, arrived ++ found.1⟩) := by
  have hstart : { base with
      table := w.table, nodes := 0, evaluations := w.evaluations, stopped := w.stopped } =
      { w with nodes := 0 } := by
    rw [← hplace.position, ← hplace.saved]
  simp only [worker, Task.alone, id, hstart]
  exact Task.alone_workThrough setup flavour depth _ { w with nodes := 0 } arrived

/-- The workers of the model are workers that run alone, one after another. Each finds a walk left
by those before it, and once one of them is stopped, the search is. -/
theorem exists_runAll (setup : Setup) (flavour : Flavour) (depth : Int) (moves : List (Nat × Move))
    (workers : Nat) {turns : List Nat} (hturns : turns.Nodup) (hplace : Restored base w)
    (arrived : List MoveValue) :
    ∃ left : Nat → Walk,
      let ran := runAll (turns.map fun k => worker setup flavour depth moves workers
        { base with stopped := (left k).stopped } (left k).evaluations k) ⟨w.table, arrived⟩
      let dealt := dealOut setup flavour depth moves workers turns w
      ran.2 = ⟨dealt.2.table, arrived ++ dealt.1⟩ ∧
        dealt.2.nodes = w.nodes + (ran.1.map Walk.nodes).foldr (· + ·) 0 ∧
        Restored base dealt.2 ∧
        (w.stopped = true → dealt.2.stopped = true) ∧
        (∀ ended ∈ ran.1, ended.stopped = true → dealt.2.stopped = true) ∧
        ∀ k ∈ turns, (left k).stopped = true → dealt.2.stopped = true := by
  -- along the turns: each worker finds the flag as the ones before it left it
  induction turns generalizing w arrived with
  | nil => exact ⟨fun _ => w, by simp [runAll, dealOut, hplace]⟩
  | cons k rest ih =>
      obtain ⟨hk, hrest⟩ := List.nodup_cons.1 hturns
      have hown := @alone_worker setup flavour depth moves workers base w hplace k arrived
      have hback := restored_workThrough setup flavour depth
        (moves.filter fun m => m.1 % workers == k) { w with nodes := 0 }
      have hstays := @stopped_workThrough setup flavour depth
        (moves.filter fun m => m.1 % workers == k) { w with nodes := 0 }
      rw [dealOut]
      simp only at hown ⊢
      generalize workThrough setup flavour depth (moves.filter fun m => m.1 % workers == k)
        { w with nodes := 0 } = own at hown hback hstays ⊢
      obtain ⟨later, hlast, hnodes, hplace', hstays', hends, hleft⟩ :=
        @ih { own.2 with nodes := w.nodes + own.2.nodes } hrest
          ⟨hback.position.trans hplace.position, hback.saved.trans hplace.saved⟩
          (arrived ++ own.1)
      refine ⟨fun j => if j = k then w else later j, ?_⟩
      -- no turn comes twice, so what this worker found does not touch what the later ones find
      have hsame : ∀ j ∈ rest, (if j = k then w else later j) = later j := by
        intro j hj
        rw [if_neg]
        rintro rfl
        exact hk hj
      have hothers : (rest.map fun j => worker setup flavour depth moves workers
          { base with stopped := (if j = k then w else later j).stopped }
          (if j = k then w else later j).evaluations j) =
          rest.map fun j => worker setup flavour depth moves workers
            { base with stopped := (later j).stopped } (later j).evaluations j := by
        apply List.map_congr_left
        intro j hj
        rw [hsame j hj]
      have hleft' : ∀ j ∈ rest, (if j = k then w else later j).stopped = true →
          (dealOut setup flavour depth moves workers rest
            { own.2 with nodes := w.nodes + own.2.nodes }).2.stopped = true := by
        intro j hj
        rw [hsame j hj]
        exact hleft j hj
      simp only [List.map_cons, if_true, runAll, hown, hothers, hlast, hnodes, List.foldr_cons,
        List.append_assoc, List.forall_mem_cons, Nat.add_assoc]
      exact ⟨trivial, trivial, hplace', fun hw => hstays' (hstays hw), ⟨hstays', hends⟩,
        fun hw => hstays' (hstays hw), hleft'⟩

/-- Workers that work one after another are one of the runs of workers at the same time, also in a
search that is stopped. -/
theorem interruptible_inTurn : Interruptible inTurn := by
  intro setup flavour depth moves workers w _
  obtain ⟨left, hlast, hnodes, hplace, _, hends, _⟩ :=
    exists_runAll setup flavour depth moves workers List.nodup_range (.refl w) []
  -- nothing but the flag that a worker finds at first is its own
  refine ⟨fun k => ⟨(left k).stopped, setup.stopAt, setup.evaluator.stopAfter⟩,
    fun k => (left k).evaluations, _, _, (inTurn setup flavour depth moves workers w).2.evaluations,
    (inTurn setup flavour depth moves workers w).2.stopped, interleaved_runAll _ [] _, ?_, ?_⟩
  · intro hsome
    obtain ⟨ended, hended, hstopped⟩ := List.any_eq_true.1 hsome
    exact hends ended hended hstopped
  · have hrun : ∀ k, setup.stopping ⟨(left k).stopped, setup.stopAt, setup.evaluator.stopAfter⟩ =
      setup := fun _ => rfl
    simp only [List.nil_append, hrun] at hlast hnodes ⊢
    rw [hlast, ← hnodes, ← hplace.position, ← hplace.saved]
    rfl

/-- Workers that work one after another are one of the runs of workers at the same time. -/
theorem concurrent_inTurn : Concurrent inTurn := by
  intro setup flavour depth moves workers w hunlimited hinTime hgoes hgoing
  have hsetup : setup.Undisturbed := ⟨hunlimited, by simp [Setup.isHurried, hinTime, hgoes]⟩
  have hstopped : (inTurn setup flavour depth moves workers w).2.stopped = false :=
    dealOut_goesOn hsetup _ hgoing
  obtain ⟨left, hlast, hnodes, hplace, _, hends, hleft⟩ :=
    exists_runAll setup flavour depth moves workers List.nodup_range (.refl w) []
  rw [← inTurn, hstopped] at hends hleft
  -- nobody is stopped
  have hworkers : ((List.range workers).map fun k => worker setup flavour depth moves workers
      { w with stopped := (left k).stopped } (left k).evaluations k) =
      (List.range workers).map fun k =>
        worker setup flavour depth moves workers w (left k).evaluations k := by
    apply List.map_congr_left
    intro k hk
    have hgoes : (left k).stopped = w.stopped :=
      (eq_false_of_ne_true fun hraised =>
        Bool.false_ne_true (hleft k hk hraised)).trans hgoing.symm
    rw [hgoes]
  rw [hworkers] at hlast hnodes hends
  have hnone := List.any_eq_false.2 fun ended hended hraised =>
    Bool.false_ne_true (hends ended hended hraised)
  refine ⟨fun k => (left k).evaluations, _, _,
    (inTurn setup flavour depth moves workers w).2.evaluations, interleaved_runAll _ [] _, ?_⟩
  simp only [List.nil_append] at hlast ⊢
  rw [hlast, hnone, ← hnodes, ← hplace.position, ← hplace.saved, ← hstopped]
  rfl

/-- Whatever may become of the root moves, some concurrent workforce makes it so. -/
theorem Gathers.exists_concurrent {setup : Setup} {flavour : Flavour} {depth : Int}
    {moves : List (Nat × Move)} {workers : Nat} {w : Walk} {found : List MoveValue × Walk}
    (h : Gathers setup flavour depth moves workers w found) :
    ∃ workforce, Concurrent workforce ∧ workforce setup flavour depth moves workers w = found := by
  classical
  -- that run on this occasion, and one worker after another on all others
  refine ⟨fun setup' flavour' depth' moves' workers' w' =>
    if (setup', flavour', depth', moves', workers', w') = (setup, flavour, depth, moves, workers, w)
    then found
    else inTurn setup' flavour' depth' moves' workers' w', ?_, if_pos rfl⟩
  intro setup' flavour' depth' moves' workers' w' hunlimited hinTime hgoes hgoing
  simp only
  split
  · rename_i heq
    cases heq
    exact h
  · exact concurrent_inTurn setup' flavour' depth' moves' workers' w' hunlimited hinTime hgoes
      hgoing

end Morris.Search
