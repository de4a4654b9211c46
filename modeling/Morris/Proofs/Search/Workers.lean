import Mathlib.Data.List.Perm.Basic
import Morris.Proofs.Search.Root

/-!
# Root moves split among workers

Each worker searches the moves dealt to it with the full window and so finds their values exactly
(`workThrough_eq`). Every move is dealt to some worker, so the values of all moves come together,
and the greatest of them is the value of the root (`Rooted.split_solved`).
-/

set_option autoImplicit false

namespace Morris.Search

variable {holds : Key → Int → Int → Prop} {setup : Setup} {top : Position} {d : Nat}
  {value : Position → Int} {exact : Int} {w : Walk}

/-! ## Dealing out -/

/-- Sorted into classes one after another, a list is permuted. -/
theorem classes_perm {α : Type} (f : α → Nat) (l : List α) (n : Nat) :
    ((List.range n).flatMap fun k => l.filter fun x => f x == k).Perm
      (l.filter fun x => decide (f x < n)) := by
  induction n with
  | zero => simp
  | succ n ih =>
      have hless : l.filter (fun x => decide (f x < n)) =
          (l.filter fun x => decide (f x < n + 1)).filter fun x => !(f x == n) := by
        rw [List.filter_filter]
        apply List.filter_congr
        intro x _
        rw [Bool.eq_iff_iff]
        simp only [decide_eq_true_eq, Bool.and_eq_true, Bool.not_eq_true', beq_eq_false_iff_ne]
        omega
      have hlast : l.filter (fun x => f x == n) =
          (l.filter fun x => decide (f x < n + 1)).filter fun x => f x == n := by
        rw [List.filter_filter]
        apply List.filter_congr
        intro x _
        rw [Bool.eq_iff_iff]
        simp only [decide_eq_true_eq, Bool.and_eq_true, beq_iff_eq]
        omega
      rw [List.range_succ, List.flatMap_append, List.flatMap_singleton, hlast]
      rw [hless] at ih
      exact (ih.append_right _).trans
        (List.perm_append_comm.trans (List.filter_append_perm _ _))

/-- What is made of the moves dealt out is made of all the moves. -/
theorem dealt_perm {α : Type} {workers : Nat} (hworkers : 0 < workers) (moves : List (Nat × Move))
    (f : Nat × Move → α) :
    ((List.range workers).flatMap fun k =>
      (moves.filter fun x => x.1 % workers == k).map f).Perm (moves.map f) := by
  have hperm := (classes_perm (fun x : Nat × Move => x.1 % workers) moves workers).map f
  have hall : moves.filter (fun x => decide (x.1 % workers < workers)) = moves :=
    List.filter_eq_self.2 fun x _ => decide_eq_true (Nat.mod_lt _ hworkers)
  rwa [List.map_flatMap, hall] at hperm

/-! ## Workers -/

/-- A numbered root move with its value. -/
def valueOf (top : Position) (value : Position → Int) (x : Nat × Move) : MoveValue :=
  ⟨x.1, x.2, top.worth value x.2⟩

theorem descend_eq_node (setup : Setup) (flavour : Flavour) (d : Nat) :
    descend setup flavour (((d + 1 : Nat) : Int) - 1) = node setup flavour d := by
  have hdepth : ((d + 1 : Nat) : Int) - 1 = d := by omega
  rw [hdepth]
  funext alpha beta w
  rw [descend, Int.toNat_natCast]
  cases d with
  | zero => rfl
  | succ d => rw [if_neg (by omega)]

/-- The searches below the root, each with the full window. -/
theorem Rooted.children_descend (h : Rooted holds setup top d value exact) (flavour : Flavour) :
    Children holds
      (fun _ flips => childValue (descend setup flavour (((d + 1 : Nat) : Int) - 1)) flips) top
      (top.worth value) := by
  rw [descend_eq_node]
  exact children_of_answers h.sound h.unfinished fun m hm _ flips =>
    answers_childValue (h.answers flavour m hm) flips

/-- A worker finds the values of its moves. -/
theorem workThrough_eq (h : Rooted holds setup top d value exact) (flavour : Flavour)
    {moves : List (Nat × Move)} (hmoves : ∀ x ∈ moves, x.2 ∈ top.legalMoves)
    (hw : w.position = top) (hready : Ready holds w) :
    (workThrough setup flavour ((d + 1 : Nat) : Int) moves w).1 = moves.map (valueOf top value) ∧
      Returned holds w (workThrough setup flavour ((d + 1 : Nat) : Int) moves w).2 := by
  induction moves generalizing w with
  | nil => exact ⟨rfl, hready.returned⟩
  | cons x rest ih =>
      obtain ⟨i, m⟩ := x
      have hm := hmoves (i, m) List.mem_cons_self
      obtain ⟨played, hplay, hanswer⟩ := (h.children_descend flavour).step hm
        (by decide : -infinite < infinite) hw hready 0
      rw [workThrough, if_neg (by simp [hready.going]), hplay]
      simp only
      generalize childValue (descend setup flavour (((d + 1 : Nat) : Int) - 1)) (top.flips m)
        (-infinite) infinite played = answer at hanswer ⊢
      obtain ⟨v, next⟩ := answer
      simp only at hanswer ⊢
      have hback : Returned holds w next.takeBack := hanswer.returned
      have hvalue : v = top.worth value m := hanswer.eq_of_full
      obtain ⟨hvalues, hreturned⟩ := ih (fun y hy => hmoves y (List.mem_cons_of_mem _ hy))
        (hback.position.trans hw) hback.toReady
      rw [if_neg (by simp [hback.going])]
      refine ⟨?_, hback.trans hreturned⟩
      rw [List.map_cons, ← hvalues, valueOf, ← hvalue]

/-- The workers together find the values of the moves dealt to each. -/
theorem dealOut_eq (h : Rooted holds setup top d value exact) (flavour : Flavour)
    {moves : List (Nat × Move)} (hmoves : ∀ x ∈ moves, x.2 ∈ top.legalMoves) (workers : Nat)
    (turns : List Nat) (hw : w.position = top) (hready : Ready holds w) :
    (dealOut setup flavour ((d + 1 : Nat) : Int) moves workers turns w).1 =
        turns.flatMap (fun k =>
          (moves.filter fun x => x.1 % workers == k).map (valueOf top value)) ∧
      Returned holds w (dealOut setup flavour ((d + 1 : Nat) : Int) moves workers turns w).2 := by
  induction turns generalizing w with
  | nil => exact ⟨rfl, hready.returned⟩
  | cons k rest ih =>
      have hdealt : ∀ x ∈ moves.filter fun x => x.1 % workers == k, x.2 ∈ top.legalMoves :=
        fun x hx => hmoves x (List.mem_filter.1 hx).1
      -- the count of nodes does not matter
      obtain ⟨hvalues, hreturned⟩ := @workThrough_eq _ _ _ _ _ _ { w with nodes := 0 } h flavour
        _ hdealt hw ⟨hready.going, hready.table⟩
      rw [dealOut]
      simp only
      generalize workThrough setup flavour ((d + 1 : Nat) : Int)
        (moves.filter fun x => x.1 % workers == k) { w with nodes := 0 } = own
        at hvalues hreturned ⊢
      obtain ⟨hothers, hrest⟩ := @ih { own.2 with nodes := w.nodes + own.2.nodes }
        (hreturned.position.trans hw) ⟨hreturned.going, hreturned.table⟩
      refine ⟨?_, ⟨hrest.going, hrest.table⟩, hrest.position.trans hreturned.position,
        hrest.saved.trans hreturned.saved⟩
      rw [List.flatMap_cons, ← hvalues, ← hothers]

/-! ## The greatest value -/

theorem foldl_best {values : List MoveValue} {exact : Int} (hmax : ∀ v ∈ values, v.value ≤ exact)
    {best : Int × Move} (hbest : best.1 ≤ exact)
    (hfound : best.1 = exact ∨ ∃ v ∈ values, v.value = exact) :
    (values.foldl (fun best v => if best.1 < v.value then (v.value, v.move) else best) best).1 =
      exact := by
  induction values generalizing best with
  | nil =>
      rcases hfound with heq | ⟨v, hv, _⟩
      · exact heq
      · cases hv
  | cons v rest ih =>
      rw [List.foldl_cons]
      have hv := hmax v List.mem_cons_self
      apply ih fun v' hv' => hmax v' (List.mem_cons_of_mem v hv')
      · split
        · exact hv
        · exact hbest
      · rcases hfound with heq | ⟨v', hv', heq⟩
        -- no later value replaces the greatest one
        · left
          rw [if_neg (by omega)]
          exact heq
        · rcases List.mem_cons.1 hv' with rfl | hrest
          · left
            split
            · exact heq
            · omega
          · exact Or.inr ⟨v', hrest, heq⟩

/-- The fold ends with one of the values or with what it began with. -/
theorem foldl_best_mem (values : List MoveValue) (best : Int × Move) :
    let found := values.foldl
      (fun best v => if best.1 < v.value then (v.value, v.move) else best) best
    found = best ∨ ∃ v ∈ values, (v.value, v.move) = found := by
  induction values generalizing best with
  | nil => exact Or.inl rfl
  | cons v rest ih =>
      simp only [List.foldl_cons]
      rcases ih (if best.1 < v.value then (v.value, v.move) else best) with heq | ⟨v', hv', heq⟩
      · rw [heq]
        split
        · exact Or.inr ⟨v, List.mem_cons_self, rfl⟩
        · exact Or.inl rfl
      · exact Or.inr ⟨v', List.mem_cons_of_mem v hv', heq⟩

/-- The best of a list of values is one of them, or the worst value with no move. -/
theorem bestOf_mem (values : List MoveValue) :
    bestOf values = (-infinite, .none) ∨ ∃ v ∈ values, (v.value, v.move) = bestOf values := by
  refine (foldl_best_mem _ (-infinite, .none)).imp_right ?_
  rintro ⟨v, hv, heq⟩
  exact ⟨v, (List.mergeSort_perm values _).mem_iff.1 hv, heq⟩

/-- The best of a list of values is the greatest one, in whatever order they come. -/
theorem bestOf_fst {values : List MoveValue} {exact : Int} (hmax : ∀ v ∈ values, v.value ≤ exact)
    (hfound : ∃ v ∈ values, v.value = exact) (hexact : -infinite ≤ exact) :
    (bestOf values).1 = exact := by
  have hperm := List.mergeSort_perm values fun x y => decide (x.index ≤ y.index)
  obtain ⟨v, hv, heq⟩ := hfound
  apply foldl_best
  · intro v' hv'
    exact hmax v' (hperm.mem_iff.1 hv')
  · exact hexact
  · exact Or.inr ⟨v, hperm.mem_iff.2 hv, heq⟩

/-- When all legal moves are dealt out, the best of the values found is that of the root, and it
comes with a legal move. -/
theorem bestOf_dealOut (h : Rooted holds setup top d value exact) (flavour : Flavour)
    {moves : List (Nat × Move)} (hmoves : ∀ x ∈ moves, x.2 ∈ top.legalMoves)
    (hall : ∀ m ∈ top.legalMoves, ∃ x ∈ moves, x.2 = m) {workers : Nat} (hworkers : 0 < workers)
    (hw : w.position = top) (hready : Ready holds w) :
    let dealt := dealOut setup flavour ((d + 1 : Nat) : Int) moves workers (List.range workers) w
    Returned holds w dealt.2 ∧ dealt.1.isEmpty = false ∧ (bestOf dealt.1).1 = exact ∧
      (bestOf dealt.1).2 ∈ top.legalMoves := by
  obtain ⟨hvalues, hreturned⟩ := dealOut_eq h flavour hmoves workers (List.range workers) hw hready
  refine ⟨hreturned, ?_⟩
  rw [hvalues]
  obtain ⟨m, hm, hbest⟩ := h.best
  obtain ⟨x, hx, rfl⟩ := hall m hm
  have hlow := neg_infinite_lt h.bounded.1
  have hperm := dealt_perm hworkers moves (valueOf top value)
  generalize (List.range workers).flatMap (fun k =>
    (moves.filter fun x => x.1 % workers == k).map (valueOf top value)) = values at hperm ⊢
  have hfound : valueOf top value x ∈ values := hperm.mem_iff.2 (List.mem_map_of_mem hx)
  have hmem : ∀ v ∈ values, ∃ y ∈ moves, valueOf top value y = v :=
    fun v hv => List.mem_map.1 (hperm.mem_iff.1 hv)
  have hgreatest : (bestOf values).1 = exact := by
    apply bestOf_fst
    · intro v hv
      obtain ⟨y, hy, rfl⟩ := hmem v hv
      exact h.greatest y.2 (hmoves y hy)
    · exact ⟨_, hfound, hbest⟩
    · exact Int.le_of_lt hlow
  refine ⟨List.isEmpty_eq_false_iff_exists_mem.2 ⟨_, hfound⟩, hgreatest, ?_⟩
  -- the value is better than the one without a move
  rcases bestOf_mem values with hnone | ⟨v, hv, heq⟩
  · rw [hnone] at hgreatest
    exact absurd hgreatest (Int.ne_of_lt hlow)
  · obtain ⟨y, hy, rfl⟩ := hmem v hv
    rw [← heq]
    exact hmoves y hy

/-- With its moves split among workers, the root gets its value. -/
theorem Rooted.split_solved (h : Rooted holds setup top d value exact) (flavour : Flavour)
    {threads : Nat} (hthreads : 1 < threads) (hw : w.position = top) (hready : Ready holds w) :
    Solved holds top exact (split setup flavour threads ((d + 1 : Nat) : Int) w) := by
  subst hw
  have hvisit := hready.visit h.undisturbed
  have hposition : (w.visit setup).position = w.position := rfl
  simp only [split, splitAmong, inTurn]
  simp only [hready.isAtEnd_visit h.undisturbed, h.unfinished, hposition, Bool.false_eq_true,
    if_false]
  generalize ((w.visit setup).table.probe w.position.state.key ((d + 1 : Nat) : Int) (-infinite)
    infinite).move = remembered
  have hlegal := fun r => @Position.mem_legalMoves_of_ranked w.position remembered r
  have hall := fun m hm => @Position.exists_ranked w.position m hm remembered
  obtain ⟨first, second, rest, hpair⟩ := Position.exists_ranked_pair h.choice remembered
  rw [hpair] at hlegal hall
  simp only [hpair]
  generalize hranked : first :: second :: rest = ranked at hlegal hall ⊢
  have hworkers : 0 < min threads (ranked.mapIdx fun i r => (i, r.move)).length := by
    rw [List.length_mapIdx, ← hranked, List.length_cons]
    omega
  have hdealt := @bestOf_dealOut _ _ _ _ _ _ (w.visit setup) h flavour
    (ranked.mapIdx fun i r => (i, r.move)) ?_ ?_ _ hworkers hposition hvisit.toReady
  · obtain ⟨hreturned, hsome, hbest, hmove⟩ := hdealt
    have hproper := h.sound.isProper_of_mem_legalMoves
      (by simpa [Position.isOver] using h.unfinished) hmove
    simp only [hsome, Bool.false_eq_true, if_false]
    split
    -- the value is recorded as exact, which it is
    · refine ⟨⟨⟨hreturned.going, ?_⟩, rfl, hreturned.position⟩, hbest⟩
      rw [hbest]
      exact hreturned.table.save hproper h.bounded fun e he => (h.only e he).symm
    · exact ⟨⟨hreturned.toReady, rfl, hreturned.position⟩, hbest⟩
  · intro x hx
    obtain ⟨i, hi, rfl⟩ := List.mem_mapIdx.1 hx
    exact hlegal _ (List.getElem_mem hi)
  · intro m hm
    obtain ⟨r, hr, rfl⟩ := hall m hm
    obtain ⟨i, hi, rfl⟩ := List.getElem_of_mem hr
    exact ⟨_, List.mem_mapIdx.2 ⟨i, hi, rfl⟩, rfl⟩

/-- With its moves split among workers, the root of a tree gets its value there. -/
theorem split_value {depth : Nat} (h : Root setup top depth) (flavour : Flavour) {threads : Nat}
    (hthreads : 1 < threads) (hw : w.position = top)
    (hready : Ready (Valued setup top depth) w) :
    (split setup flavour threads depth w).1.value = negamax setup depth top := by
  obtain ⟨d, rfl⟩ := Nat.exists_eq_add_of_le' h.positive
  exact ((h.toSearchable.telling.rooted h.unfinished h.choice).split_solved flavour hthreads hw
    hready).value

end Morris.Search
