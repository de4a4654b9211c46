import Mathlib.Data.List.Sort
import Morris.Proofs.Search.Crew
import Morris.Proofs.Search.Deepening

/-!
# A shallow root, split or not

Searched with the full window one after another, the moves of a shallow root leave the first one of
the greatest value: a move takes the place of the best one so far only if its value is greater
(`Search.better`), and the window of the later ones tells whether it is
(`Search.ShallowRoot.tryMoves_eq`). Workers come to the values of all moves in some order, and
sorted by their places the values leave the same move (`Search.bestOf_of_perm`). So the result at
the root is `Search.firstBest` in both searches.
-/

set_option autoImplicit false

namespace Morris.Search

open Table (Absent)

variable {setup : Setup} {flavour : Flavour} {d : Nat} {top : Position} {saved : List State}
  {keys : List Key} {value : Move → Int} {w : Walk}

/-! ## The first of the best moves -/

/-- Keep the best move so far, with its value, unless another one has a greater value. -/
def better (value : Move → Int) (best : Int × Move) (m : Move) : Int × Move :=
  if best.1 < value m then (value m, m) else best

/-- The best of several moves is one of them if each is better than none. -/
theorem foldl_better_mem {moves : List Move} (hne : moves ≠ [])
    (hvalue : ∀ m ∈ moves, -infinite < value m) :
    ∃ m ∈ moves, moves.foldl (better value) (-infinite, .none) = (value m, m) := by
  obtain ⟨first, rest, rfl⟩ := List.exists_cons_of_ne_nil hne
  have hfirst := hvalue first List.mem_cons_self
  rw [List.foldl_cons, better, if_pos hfirst]
  have hmem := foldl_best_mem (rest.map fun m => ⟨0, m, value m⟩) (value first, first)
  rw [List.foldl_map] at hmem
  rcases hmem with heq | ⟨v, hv, heq⟩
  · exact ⟨first, List.mem_cons_self, heq⟩
  · obtain ⟨m, hm, rfl⟩ := List.mem_map.1 hv
    exact ⟨m, List.mem_cons_of_mem first hm, heq.symm⟩

/-- In whatever order the values of numbered moves come, the best one is that of the first of the
best moves. -/
theorem bestOf_of_perm {moves : List (Nat × Move)}
    (hnumbered : (moves.map Prod.fst).Pairwise (· < ·)) {values : List MoveValue}
    (hperm : values.Perm (moves.map (found value))) :
    bestOf values = (moves.map Prod.snd).foldl (better value) (-infinite, .none) := by
  have hsorted : (values.mergeSort fun x y => decide (x.index ≤ y.index)) =
      moves.map (found value) := by
    apply @List.Perm.eq_of_pairwise _ fun x y : MoveValue => decide (x.index ≤ y.index) = true
    · -- no two moves have the same place
      intro x y hx hy hle hge
      have hx := hperm.mem_iff.1 ((List.mergeSort_perm values _).mem_iff.1 hx)
      obtain ⟨a, ha, rfl⟩ := List.mem_map.1 hx
      obtain ⟨b, hb, rfl⟩ := List.mem_map.1 hy
      have hplace : a.1 = b.1 :=
        Nat.le_antisymm (of_decide_eq_true hle) (of_decide_eq_true hge)
      rw [List.inj_on_of_nodup_map (hnumbered.imp Nat.ne_of_lt) ha hb hplace]
    · apply List.pairwise_mergeSort
      · intro x y z hxy hyz
        exact decide_eq_true (Nat.le_trans (of_decide_eq_true hxy) (of_decide_eq_true hyz))
      · intro x y
        simpa using Nat.le_total x.index y.index
    · rw [List.pairwise_map] at hnumbered ⊢
      exact hnumbered.imp fun hlt => decide_eq_true (Nat.le_of_lt hlt)
    · exact (List.mergeSort_perm values _).trans hperm
  rw [bestOf, hsorted, List.foldl_map, List.foldl_map]
  rfl

/-! ## One after another -/

/-- Where a loop with an open upper end stands: it has raised the lower end with every better move.
-/
structure Raised (p : Progress) : Prop where
  alpha : p.alpha = p.best
  move : p.raised.getD .none = p.bestMove
  below : p.best < infinite

/-- The loop over the moves of a shallow root leaves the first of the best ones. -/
theorem ShallowRoot.tryMoves_eq (h : ShallowRoot setup flavour top saved d value)
    {rest : List RankedMove} (hlegal : ∀ r ∈ rest, r.move ∈ top.legalMoves)
    (hkeys : (rest.map fun r => (top.after r.move).state.key).Nodup) {p : Progress} (hp : Raised p)
    (hw : Fresh (rest.map fun r => (top.after r.move).state.key) top saved w) (i : Nat) :
    let tried := tryMoves (child flavour (node setup flavour d)) infinite i rest p w
    (tried.1.best, tried.1.bestMove) =
        (rest.map RankedMove.move).foldl (better value) (p.best, p.bestMove) ∧
      Raised tried.1 ∧ tried.2.stopped = false := by
  induction rest generalizing p w i with
  | nil => exact ⟨rfl, hp, hw.going⟩
  | cons r rest ih =>
      have hrest : ∀ r' ∈ rest, r'.move ∈ top.legalMoves :=
        fun r' hr' => hlegal r' (List.mem_cons_of_mem r hr')
      have hr := hlegal r List.mem_cons_self
      obtain ⟨hkey, hothers⟩ := List.nodup_cons.1 hkeys
      have hopen : p.alpha < infinite := hp.alpha ▸ hp.below
      obtain ⟨played, hplay, hwithin, hback⟩ := h.step hr hkey hopen hw i
      have hbounded := (h.leads r.move hr).bounded
      have hlimit : valueLimit < infinite := by decide
      rw [tryMoves, hplay]
      simp only [List.map_cons, List.foldl_cons]
      generalize child flavour (node setup flavour d) i (top.flips r.move) p.alpha infinite played =
        answer at hwithin hback ⊢
      obtain ⟨v, next⟩ := answer
      simp only at hwithin hback ⊢
      rw [if_neg (by simp [hback.going])]
      split
      · -- a better value is exact, and there is room above it
        rename_i hbetter
        have hraises : p.alpha < v := hp.alpha ▸ hbetter
        have hle := hwithin.below hraises
        have hroom : v < infinite := by omega
        have hexact : v = value r.move := Int.le_antisymm hle (hwithin.above hroom)
        rw [if_pos hraises, if_neg (Int.not_le.2 hroom), better, if_pos (hexact ▸ hbetter),
          ← hexact]
        exact ih hrest hothers (p := { p with
          alpha := v, best := v, bestMove := r.move, raised := some r.move })
          ⟨rfl, rfl, hroom⟩ hback (i + 1)
      · -- a value that is not better is a bound, and the true one is no better either
        rename_i hworse
        have hle := hwithin.above (by have hbelow := hp.below; omega)
        rw [better, if_neg (by simp only; omega)]
        exact ih hrest hothers hp hback (i + 1)

/-- The result at a root: its static value without a move, and else the only move or the first of
the best ones. -/
def firstBest (setup : Setup) (top : Position) (depth : Int) (value : Move → Int) : Result :=
  match top.rankedMoves .none with
  | [] => ⟨biased (setup.evaluator.value top) depth, .none, false⟩
  | [r] => ⟨uniqueValue, r.move, true⟩
  | ranked =>
      let best := (ranked.map RankedMove.move).foldl (better value) (-infinite, .none)
      ⟨best.1, best.2, false⟩

/-- A walk that sets out from a root over an empty table. -/
structure Outset (top : Position) (w : Walk) : Prop where
  position : w.position = top
  going : w.stopped = false
  empty : w.table.stored = {}

theorem Outset.fresh (h : Outset top w) (hsetup : setup.Undisturbed) (keys : List Key) :
    Fresh keys top w.saved (w.visit setup) := by
  have hready : Ready (Absent keys) w := ⟨h.going, Table.truthful_of_stored_eq_empty h.empty⟩
  have hvisit := hready.visit hsetup
  exact ⟨hvisit.toReady, hvisit.position.trans h.position, hvisit.saved⟩

/-- A search goes on from a shallow root. -/
theorem ShallowRoot.isAtEnd_visit (h : ShallowRoot setup flavour top saved d value)
    (hw : Outset top w) : (w.visit setup).isAtEnd = false :=
  (h.steady.undisturbed.isAtEnd_visit hw.going).trans (hw.position ▸ h.unfinished)

/-- The values of the moves of a shallow root are better than none. -/
theorem ShallowRoot.lt_value (h : ShallowRoot setup flavour top saved d value) {m : Move}
    (hm : m ∈ top.legalMoves) : -infinite < value m :=
  neg_infinite_lt (h.leads m hm).bounded.1

/-- The first of the best moves of a shallow root is a real one. -/
theorem ShallowRoot.isProper_best (h : ShallowRoot setup flavour top saved d value)
    {moves : List Move} (hne : moves ≠ []) (hlegal : ∀ m ∈ moves, m ∈ top.legalMoves) :
    (moves.foldl (better value) (-infinite, .none)).2.isProper = true := by
  obtain ⟨m, hm, heq⟩ := foldl_better_mem hne fun m hm => h.lt_value (hlegal m hm)
  rw [heq]
  exact h.sound.isProper_of_mem_legalMoves (by simpa [Position.isOver] using h.unfinished)
    (hlegal m hm)

/-- Different keys of the children stay different in the order in which the moves are tried. -/
theorem nodup_ranked (hkeys : (top.legalMoves.map fun m => (top.after m).state.key).Nodup) :
    ((top.rankedMoves .none).map fun r => (top.after r.move).state.key).Nodup := by
  have hperm := (top.map_move_rankedMoves_perm .none).map fun m => (top.after m).state.key
  rw [List.map_map] at hperm
  exact hperm.nodup_iff.2 hkeys

/-- Searched with the full window, a shallow root has the first of its best moves. -/
theorem ShallowRoot.fullWindow_eq (h : ShallowRoot setup flavour top w.saved d value)
    (hlimit : isPastMoveLimit top = false)
    (hkeys : (top.legalMoves.map fun m => (top.after m).state.key).Nodup) (hw : Outset top w) :
    let answer := fullWindow setup flavour ((d + 1 : Nat) : Int) .none w
    answer.1 = firstBest setup top ((d + 1 : Nat) : Int) value ∧ answer.2.stopped = false := by
  have hvisit := hw.fresh h.steady.undisturbed
  have hend := h.isAtEnd_visit hw
  have hempty : (w.visit setup).table.stored = {} := hw.empty
  simp only [fullWindow, root, Int.toNat_natCast, hend, (hvisit []).position, hlimit,
    Table.probe_of_stored_eq_empty hempty, Bool.false_eq_true, false_and, if_false,
    Option.filter_none, firstBest]
  have hranked : ∀ r ∈ top.rankedMoves .none, r.move ∈ top.legalMoves :=
    fun r hr => Position.mem_legalMoves_of_ranked hr
  have hdifferent := nodup_ranked hkeys
  generalize top.rankedMoves .none = ranked at hranked hdifferent ⊢
  rcases ranked with _ | ⟨first, _ | ⟨second, rest⟩⟩
  · have hback := h.steady.undisturbed.evaluate (w := w.visit setup) (hvisit []).going
    exact ⟨by simp [staticValue, Walk.evaluate, (hvisit []).position], hback.going⟩
  · exact ⟨rfl, (hvisit []).going⟩
  · obtain ⟨hbest, hraised, hgoing⟩ := h.tryMoves_eq hranked hdifferent
      (p := { alpha := -infinite }) ⟨rfl, rfl, by decide⟩ (hvisit _) 0
    have hproper : (((first :: second :: rest).map RankedMove.move).foldl (better value)
        (-infinite, .none)).2.isProper = true :=
      h.isProper_best (by simp) (by simpa using hranked)
    simp only
    generalize tryMoves (child flavour (node setup flavour d)) infinite 0 (first :: second :: rest)
      { alpha := -infinite } (w.visit setup) = tried at hbest hraised hgoing ⊢
    -- the last move that raised the lower end is the best one, and a real one
    rw [← hbest] at hproper ⊢
    rw [finishNode_of_going hgoing, hraised.move, if_pos hproper]
    exact ⟨rfl, hgoing⟩

/-! ## At the same time -/

/-- Numbered, the ranked moves are in the order of their places. -/
theorem numbered_fst (ranked : List RankedMove) :
    (ranked.mapIdx fun i r => (i, r.move)).map Prod.fst = List.range ranked.length := by
  apply List.ext_getElem (by simp)
  intro i _ _
  simp

theorem numbered_snd (ranked : List RankedMove) :
    (ranked.mapIdx fun i r => (i, r.move)).map Prod.snd = ranked.map RankedMove.move := by
  apply List.ext_getElem (by simp)
  intro i _ _
  simp

/-- With its moves split among workers, a shallow root has the first of its best moves, in whatever
order the workers make their accesses. -/
theorem ShallowRoot.splitAmong_eq (h : ShallowRoot setup flavour top w.saved d value) (hd : d ≤ 1)
    (hkeys : (top.legalMoves.map fun m => (top.after m).state.key).Nodup) (hw : Outset top w)
    {workforce : Workforce} (hconcurrent : Concurrent workforce) {threads : Nat}
    (hthreads : 0 < threads) :
    let answer := splitAmong workforce setup flavour threads ((d + 1 : Nat) : Int) w
    answer.1 = firstBest setup top ((d + 1 : Nat) : Int) value ∧ answer.2.stopped = false := by
  have hvisit := hw.fresh h.steady.undisturbed
  have hend := h.isAtEnd_visit hw
  have hempty : (w.visit setup).table.stored = {} := hw.empty
  simp only [splitAmong, hend, (hvisit []).position, Table.probe_of_stored_eq_empty hempty,
    Bool.false_eq_true, if_false, firstBest]
  have hranked : ∀ r ∈ top.rankedMoves .none, r.move ∈ top.legalMoves :=
    fun r hr => Position.mem_legalMoves_of_ranked hr
  have hdifferent := nodup_ranked hkeys
  generalize top.rankedMoves .none = ranked at hranked hdifferent ⊢
  rcases ranked with _ | ⟨first, _ | ⟨second, rest⟩⟩
  · have hback := h.steady.undisturbed.evaluate (w := w.visit setup) (hvisit []).going
    exact ⟨by simp [staticValue, Walk.evaluate, (hvisit []).position], hback.going⟩
  · exact ⟨rfl, (hvisit []).going⟩
  · -- two moves or more: what comes together is the value of each of them
    simp only
    generalize hall : first :: second :: rest = ranked at hranked hdifferent ⊢
    have hsnd := numbered_snd ranked
    have hfst := numbered_fst ranked
    have hlength : (ranked.mapIdx fun i r => (i, r.move)).length = ranked.length := by simp
    have hpositive : 0 < ranked.length := by simp [← hall]
    generalize (ranked.mapIdx fun i r => (i, r.move)) = moves at hsnd hfst hlength ⊢
    have hmoves : ∀ x ∈ moves, x.2 ∈ top.legalMoves := by
      intro x hx
      obtain ⟨r, hr, hmove⟩ := List.mem_map.1 (hsnd ▸ List.mem_map_of_mem hx)
      exact hmove ▸ hranked r hr
    have hdealt : (moves.map fun x => (top.after x.2).state.key).Nodup := by
      have hmap := congrArg (List.map fun m => (top.after m).state.key) hsnd
      rw [List.map_map, List.map_map] at hmap
      exact hmap ▸ hdifferent
    -- nothing stops the search, so what comes together is what a run of the workers leaves
    have hintime := h.steady.undisturbed.inTime
    rw [Setup.isHurried, Bool.or_eq_false_iff, Option.isSome_eq_false_iff] at hintime
    obtain ⟨hperm, hgoing⟩ := Gathers.values_perm h hd hmoves hdealt
      (by omega : 0 < min threads moves.length) (hvisit _)
      (hconcurrent setup flavour ((d + 1 : Nat) : Int) moves (min threads moves.length)
        (w.visit setup) h.steady.undisturbed.unlimited hintime.1 (by simpa using hintime.2)
        (hvisit []).going)
    generalize workforce setup flavour ((d + 1 : Nat) : Int) moves (min threads moves.length)
      (w.visit setup) = gathered at hperm hgoing ⊢
    have hsome : gathered.1.isEmpty = false := by
      rw [List.isEmpty_eq_false_iff, ← List.length_pos_iff, hperm.length_eq, List.length_map]
      omega
    have hbest := bestOf_of_perm (hfst ▸ List.pairwise_lt_range) hperm
    rw [hsnd] at hbest
    simp only [hsome, hbest, Bool.false_eq_true, if_false]
    split
    · exact ⟨rfl, hgoing⟩
    · exact ⟨rfl, hgoing⟩

/-! ## Any number of threads -/

/-- Alpha-beta and principal variation search come to the same result with several threads as with
one. -/
theorem searchAmong_eq_search (hsetup : setup.Steady) (h : Startable top)
    (hkeys : (top.legalMoves.map fun m => (top.after m).state.key).Nodup) (hw : Outset top w)
    (hd : d ≤ 1) {a : Algorithm} (ha : a ≠ .mtdf) {workforce : Workforce}
    (hconcurrent : Concurrent workforce) {threads : Nat} (hthreads : 2 ≤ threads) :
    let several := a.searchAmong workforce threads setup ((d + 1 : Nat) : Int) none w
    let one := a.search 1 setup ((d + 1 : Nat) : Int) none w
    several.1 = one.1 ∧ several.2.stopped = false ∧ one.2.stopped = false := by
  obtain ⟨value, hroot⟩ := exists_shallowRoot hsetup h.toSound h.unfinished a.flavour hd w.saved
  obtain ⟨hmany, hgoing⟩ := hroot.splitAmong_eq hd hkeys hw hconcurrent (by omega : 0 < threads)
  obtain ⟨hsingle, hgoes⟩ := hroot.fullWindow_eq h.withinLimit hkeys hw
  have hsplits : a.splitsRoot threads = true := by
    simp only [Algorithm.splitsRoot, bne_iff_ne, ne_eq, Bool.and_eq_true, decide_eq_true_eq]
    exact ⟨ha, hthreads⟩
  have hone : a.search 1 setup ((d + 1 : Nat) : Int) none w =
      fullWindow setup a.flavour ((d + 1 : Nat) : Int) .none w := by
    cases a with
    | alphaBeta => rfl
    | pvs => rfl
    | mtdf => exact absurd rfl ha
  simp only [hone, Algorithm.searchAmong, hsplits, if_true]
  exact ⟨hmany.trans hsingle.symm, hgoing, hgoes⟩

/-- A single search that is not stopped is the one that counts. -/
theorem deepen_single {search : Int → Option Int → Walk → Result × Walk} {depth : Int}
    (hgoing : (search depth none w).2.stopped = false) :
    (deepen search false [depth] none {} w).1 =
      { Report.accept {} (search depth none w).1 depth with completed := true } := by
  simp only [deepen]
  rw [if_neg (by simp [hgoing])]
  split
  · rfl
  · rfl

/-- Up to a depth of two nothing is searched before the greatest depth. -/
theorem depths_of_le {maxDepth : Int} (hpositive : 1 ≤ maxDepth) (hle : maxDepth ≤ 2)
    (deepening : Bool) : depths deepening (max 1 (min maxDepth depthLimit)) = [maxDepth] := by
  have hlimit : depthLimit = 40 := rfl
  have hgreatest : max 1 (min maxDepth depthLimit) = maxDepth := by omega
  have hbefore : (maxDepth - 2).toNat = 0 := by omega
  rw [hgreatest, depths, hbefore]
  cases deepening with
  | true => rfl
  | false => rfl

/-- The report of a search to a depth of one or two does not depend on the number of threads. -/
theorem iterateAmong_eq_iterate (hsetup : setup.Steady) (h : Startable top)
    (hkeys : (top.legalMoves.map fun m => (top.after m).state.key).Nodup) (hw : Outset top w)
    {maxDepth : Int} (hpositive : 1 ≤ maxDepth) (hle : maxDepth ≤ 2) (deepening : Bool)
    {a : Algorithm} (ha : a ≠ .mtdf) {workforce : Workforce} (hconcurrent : Concurrent workforce)
    {threads : Nat} (hthreads : 2 ≤ threads) :
    (iterateAmong workforce a threads setup maxDepth deepening w).1 =
      (iterate a 1 setup maxDepth deepening w).1 := by
  obtain ⟨d, hdepth, hd⟩ : ∃ d : Nat, maxDepth = ((d + 1 : Nat) : Int) ∧ d ≤ 1 :=
    ⟨maxDepth.toNat - 1, by omega, by omega⟩
  obtain ⟨hresult, hgoing, hgoes⟩ :=
    searchAmong_eq_search hsetup h hkeys hw hd ha hconcurrent hthreads
  rw [← hdepth] at hresult hgoing hgoes
  have hintime : setup.timeIsUp = false :=
    (Bool.or_eq_false_iff.1 hsetup.undisturbed.inTime).1
  simp only [iterate, iterateAmong, depths_of_le hpositive hle, hintime]
  have hone : a.searchAmong inTurn 1 setup = a.search 1 setup := rfl
  rw [deepen_single hgoing, hone, deepen_single hgoes, hresult]

end Morris.Search
