import Mathlib.Data.List.Nodup
import Morris.Proofs.Search.Deepening

/-!
# Deepening finds the value

Deepening searches the root to one depth after another over one table, so the entries that an
earlier search has left tell values of a lesser depth. They order the moves, take up room and give
the next search its guess, but they settle nothing. Where every key belongs to one ply of the tree,
a search asks for more depth at a key than any search before it has recorded, so what the table may
tell of the key is only what this search records itself (`Search.Told`). A table that is truthful
for one search is therefore truthful for the next (`Told.mono`), and the last search answers with
the value of the greatest depth, as it does alone (`reachable_iterate_value`).
-/

set_option autoImplicit false

namespace Morris.Search

variable {holds : Key → Int → Int → Prop} {setup : Setup} {top pos : Position} {depth d : Nat}
  {w : Walk}

/-! ## One search -/

/-- With a table that tells the values of the nodes, every algorithm finds the value of the root and
may be followed by another search. -/
theorem Telling.search_solved (h : Telling holds setup top depth) (hover : top.isOver = false)
    (hchoice : 2 ≤ top.legalMoves.length) (hpositive : 1 ≤ depth) (hw : w.position = top)
    (hready : Ready holds w) {guess : Option Int}
    (hguess : ∀ g ∈ guess, -infinite ≤ g ∧ g ≤ infinite) (a : Algorithm) (threads : Nat) :
    Solved holds top (negamax setup depth top) (a.search threads setup depth guess w) := by
  have hanswers := h.rootAnswers hover hchoice hpositive
  simp only [Algorithm.search, Algorithm.searchAmong]
  split
  · rename_i hsplits
    simp only [Algorithm.splitsRoot, Bool.and_eq_true, decide_eq_true_eq] at hsplits
    obtain ⟨d, rfl⟩ := Nat.exists_eq_add_of_le' hpositive
    exact (h.rooted hover hchoice).split_solved a.flavour hsplits.2 hw hready
  · cases a with
    | alphaBeta => exact hanswers.fullWindow_solved .plain .none hw hready
    | pvs =>
        cases guess with
        | none => exact hanswers.fullWindow_solved .principal .none hw hready
        | some g => exact hanswers.aspiration_solved (hguess g rfl) hw hready
    | mtdf => exact hanswers.closeIn_solved (h.steady.negamax_within h.deepest top) _ hw hready

/-! ## Trees of growing depths -/

/-- A node of a tree is a node of the deeper tree below the same top, with as much depth more. -/
theorem InTree.deeper (h : InTree top depth pos d) (more : Nat) :
    InTree top (depth + more) pos (d + more) := by
  induction h with
  | top => exact .top
  | child _ hover hm ih =>
      rw [Nat.add_right_comm] at ih
      exact .child ih hover hm

/-- Whether the keys of a tree tell its plies and values apart: unfinished nodes with some depth
left and equal keys have the same depth left, and the same value to every depth that the tree has.
-/
def KeysTellPlies (setup : Setup) (top : Position) (depth : Nat) : Prop :=
  ∀ pos next d e, InTree top depth pos (d + 1) → InTree top depth next (e + 1) →
    pos.isOver = false → next.isOver = false → pos.state.key = next.state.key →
    d = e ∧ ∀ r ≤ depth, negamax setup r pos = negamax setup r next

/-- The nodes of a tree with some depth left, each with the depth left at the nodes after it. -/
def innerNodes : Nat → Position → List (Nat × Position)
  | 0, _ => []
  | d + 1, pos => (d, pos) :: pos.legalMoves.flatMap fun m => innerNodes d (pos.after m)

theorem child_mem_innerNodes {m : Move} (hm : m ∈ pos.legalMoves)
    (h : (d + 1, pos) ∈ innerNodes depth top) : (d, pos.after m) ∈ innerNodes depth top := by
  induction depth generalizing top with
  | zero => cases h
  | succ depth ih =>
      rw [innerNodes] at h ⊢
      rcases List.mem_cons.1 h with htop | hbelow
      · cases htop
        refine List.mem_cons_of_mem _ (List.mem_flatMap.2 ⟨m, hm, ?_⟩)
        rw [innerNodes]
        exact List.mem_cons_self
      · obtain ⟨first, hfirst, hmem⟩ := List.mem_flatMap.1 hbelow
        exact List.mem_cons_of_mem _ (List.mem_flatMap.2 ⟨first, hfirst, ih hmem⟩)

theorem InTree.mem_innerNodes (h : InTree top depth pos (d + 1)) :
    (d, pos) ∈ innerNodes depth top := by
  generalize hleft : d + 1 = left at h
  induction h generalizing d with
  | top =>
      subst hleft
      rw [innerNodes]
      exact List.mem_cons_self
  | child _ _ hm ih => exact child_mem_innerNodes hm (ih (congrArg (· + 1) hleft))

/-- The keys of a tree tell its plies and values if they are all different. -/
theorem keysTellPlies_of_nodup
    (h : ((innerNodes depth top).map fun x => x.2.state.key).Nodup) :
    KeysTellPlies setup top depth := by
  intro pos next d e hpos hnext _ _ hkey
  cases List.inj_on_of_nodup_map h hpos.mem_innerNodes hnext.mem_innerNodes hkey
  exact ⟨rfl, fun _ _ => rfl⟩

/-! ## What the table may tell -/

/-- The values that the table may tell in a search that is short of a depth by some plies. Of a node
with some depth left in the whole tree, the search itself records the value to so many plies less.
Deeper entries may tell anything, which is to say that there are none. -/
def Told (setup : Setup) (top : Position) (depth short : Nat) (key : Key) (stored exact : Int) :
    Prop :=
  ∃ pos d, InTree top depth pos (d + 1) ∧ pos.isOver = false ∧ pos.state.key = key ∧
    (d : Int) + 1 ≤ stored + short ∧
    (stored + short = (d : Int) + 1 → negamax setup stored.toNat pos = exact)

/-- The less a search is short of the depth, the less the table may tell: what earlier searches have
recorded is not deep enough for a later one. -/
theorem Told.mono {short long : Nat} (hle : short ≤ long) {key : Key} {stored exact : Int}
    (h : Told setup top depth short key stored exact) :
    Told setup top depth long key stored exact := by
  obtain ⟨pos, d, hpos, hover, hkey, hdeep, hvalue⟩ := h
  exact ⟨pos, d, hpos, hover, hkey, by omega, fun heq => hvalue (by omega)⟩

/-- A root to search to growing depths: nothing stops the searches, draws play no part, the greatest
depth is allowed, its keys tell plies and values apart, and more than one move is legal. -/
structure Deepening (setup : Setup) (top : Position) (depth : Nat) : Prop where
  steady : setup.Steady
  regular : Regular top
  deepest : (depth : Int) ≤ depthLimit
  keys : KeysTellPlies setup top depth
  unfinished : top.isOver = false
  choice : 2 ≤ top.legalMoves.length

/-- In a search to a lesser depth the table tells the values of the nodes. -/
theorem Deepening.telling {short : Nat} (h : Deepening setup top (d + short)) :
    Telling (Told setup top (d + short) short) setup top d where
  steady := h.steady
  regular := h.regular
  deepest := by
    have hdeepest := h.deepest
    omega
  only := by
    rintro pos r exact hpos hover ⟨next, e, hnext, hnextOver, hkey, -, hvalue⟩
    have hdeeper := hpos.deeper short
    have hle := hpos.le
    rw [Nat.add_right_comm] at hdeeper
    -- the other node of the key has the same depth left in the whole tree
    obtain ⟨hply, hsame⟩ := h.keys next pos e (r + short) hnext hdeeper hnextOver hover hkey
    have hdepth : ((r : Int) + 1).toNat = r + 1 := by omega
    rw [← hvalue (by omega), hdepth]
    exact hsame (r + 1) (by omega)
  tells := by
    intro pos r stored hpos hover hdeep
    have hdeeper := hpos.deeper short
    rw [Nat.add_right_comm] at hdeeper
    refine ⟨pos, r + short, hdeeper, hover, rfl, by omega, fun heq => ?_⟩
    have hdepth : stored.toNat = r + 1 := by omega
    rw [hdepth]

/-! ## One search after another -/

/-- One search of a deepening finds the value to its depth, and leaves a table that serves the
deeper searches. -/
theorem Deepening.search_solved (h : Deepening setup top depth) (hpositive : 1 ≤ d)
    {short : Nat} (hshort : d + short = depth) {long : Nat} (hle : short ≤ long)
    (hw : w.position = top) (hready : Ready (Told setup top depth long) w) {guess : Option Int}
    (hguess : ∀ g ∈ guess, -infinite ≤ g ∧ g ≤ infinite) (a : Algorithm) (threads : Nat) :
    Solved (Told setup top depth short) top (negamax setup d top)
      (a.search threads setup d guess w) := by
  subst hshort
  have hready' : Ready (Told setup top (d + short) short) w :=
    hready.mono fun _ _ _ => Told.mono hle
  exact h.telling.search_solved h.unfinished h.choice hpositive hw hready' hguess a threads

/-- Deepening to lesser depths first ends with the value to the greatest depth. -/
theorem Deepening.deepen_spec (h : Deepening setup top depth) (hpositive : 1 ≤ depth)
    (a : Algorithm) (threads : Nat) {before : List Int} (hgrow : before.Pairwise (· < ·))
    {long : Nat} (hrange : ∀ i ∈ before, 1 ≤ i ∧ i < depth ∧ (depth : Int) ≤ i + long)
    {guess : Option Int} (hguess : ∀ g ∈ guess, -infinite ≤ g ∧ g ≤ infinite) (report : Report)
    (hw : w.position = top) (hready : Ready (Told setup top depth long) w) :
    let answer := (deepen (a.search threads setup) false (before ++ [(depth : Int)]) guess report
      w).1
    answer.value = negamax setup depth top ∧ answer.depth = depth ∧ answer.completed = true := by
  -- over the depths to come, with the table as the search before has left it
  induction before generalizing long guess report w with
  | nil =>
      have hsolved := h.search_solved hpositive (Nat.add_zero depth) (Nat.zero_le long) hw hready
        hguess a threads
      simp only [List.nil_append, deepen, hsolved.going, hsolved.choice, Bool.false_eq_true,
        if_false]
      exact ⟨hsolved.value, rfl, trivial⟩
  | cons i rest ih =>
      obtain ⟨hless, hrest⟩ := List.pairwise_cons.1 hgrow
      obtain ⟨hfirst, hlast, hlong⟩ := hrange i List.mem_cons_self
      obtain ⟨d, rfl⟩ := Int.eq_ofNat_of_zero_le (Int.le_trans Int.one_nonneg hfirst)
      obtain ⟨short, hshort⟩ := Nat.exists_eq_add_of_le (Int.ofNat_le.1 (Int.le_of_lt hlast))
      have hsolved := h.search_solved (by omega) hshort.symm (by omega : short ≤ long) hw hready
        hguess a threads
      have hdeepest : (d : Int) ≤ depthLimit := Int.le_trans (Int.le_of_lt hlast) h.deepest
      have hbounded := h.steady.negamax_within hdeepest top
      have hlimit : valueLimit ≤ infinite := by decide
      simp only [List.cons_append, deepen, hsolved.going, hsolved.choice, Bool.false_eq_true,
        if_false]
      refine ih hrest (fun j hj => ?_) ?_ _ hsolved.position hsolved.toReady
      · have hbeyond := hless j hj
        have hwithin := hrange j (List.mem_cons_of_mem _ hj)
        omega
      · rintro g ⟨⟩
        rw [hsolved.value]
        omega

/-- All depths but the last grow towards it. -/
theorem depths_eq (deepening : Bool) {greatest : Int} (h : 1 ≤ greatest) :
    ∃ before : List Int, depths deepening greatest = before ++ [greatest] ∧
      before.Pairwise (· < ·) ∧ ∀ i ∈ before, 1 ≤ i ∧ i < greatest := by
  obtain ⟨hgrow, hpositive, -⟩ := depths_spec deepening h
  rw [depths] at hgrow hpositive
  obtain ⟨hbefore, -, hless⟩ := List.pairwise_append.1 hgrow
  exact ⟨_, rfl, hbefore, fun i hi => ⟨hpositive i (List.mem_append_left _ hi),
    hless i hi greatest List.mem_cons_self⟩⟩

/-- Searching a position by iterative deepening or to the greatest depth at once gives the same
value, by every algorithm and with any number of workers: the depth-limited negamax value of the
greatest depth, which is reached and completed. The position is reachable, is not over and has a
choice of moves. The table is empty at first, nothing stops the searches, neither repetitions nor a
shorter limit for endgames draw, and nodes that the table cannot tell apart lie at one ply and have
equal values to every depth. -/
theorem reachable_iterate_value {rule : Rule} (h : Position.Reachable rule pos)
    (hrepetition : pos.rule.threefoldRepetition = false)
    (hlimits : pos.rule.endgameMoveLimit = pos.rule.moveLimit) (hover : pos.isOver = false)
    (hchoice : 2 ≤ pos.legalMoves.length) (hsetup : setup.Steady) (hpositive : 1 ≤ depth)
    (hdeepest : (depth : Int) ≤ depthLimit) (hkeys : KeysTellPlies setup pos depth)
    (hw : w.position = pos) (hgoing : w.stopped = false) (hempty : w.table.stored = {})
    (a : Algorithm) (threads : Nat) (deepening : Bool) :
    let report := (iterate a threads setup depth deepening w).1
    report.value = negamax setup depth pos ∧ report.depth = depth ∧ report.completed = true := by
  have hroot : Deepening setup pos depth :=
    ⟨hsetup, ⟨h.sound, hrepetition, hlimits⟩, hdeepest, hkeys, hover, hchoice⟩
  have hready : Ready (Told setup pos depth depth) w :=
    ⟨hgoing, Table.truthful_of_stored_eq_empty hempty⟩
  have hgreatest : max 1 (min (depth : Int) depthLimit) = depth := by omega
  have hintime : setup.timeIsUp = false := by
    have hnone := hsetup.inTime
    simp only [Setup.isHurried, Bool.or_eq_false_iff] at hnone
    exact hnone.1
  obtain ⟨before, hdepths, hgrow, hrange⟩ := depths_eq deepening (Int.ofNat_le.2 hpositive)
  simp only [iterate, iterateAmong, hgreatest, hdepths, hintime]
  refine hroot.deepen_spec hpositive a threads hgrow (fun i hi => ?_) (by rintro g ⟨⟩) {} hw
    hready
  have hlast := hrange i hi
  omega

/-- Three men a side that never fly, and no draws by repetition. -/
def grounded : Rule := { pieceCount := 3, mayFly := false, threefoldRepetition := false }

/-- All men stand on one ring, where they leave each other little room. -/
def ringed : Position :=
  (Position.ofVariant (.ofRule grounded)).performAll
    [.apply (.place 29), .apply (.place 28), .apply (.place 25), .apply (.place 27),
      .apply (.place 31), .apply (.place 24)]

/-- The case of MTD(f) to depth three, after a search to depth two that has left its entries in the
table and its value as a guess. -/
theorem reachable_iterate_value_ringed :
    Position.Reachable grounded ringed ∧ ringed.isOver = false ∧ 2 ≤ ringed.legalMoves.length ∧
      KeysTellPlies { evaluator := .byKey } ringed 3 ∧ depths true 3 = [2, 3] ∧
      let report := (iterate .mtdf 1 { evaluator := .byKey } 3 true
        { position := ringed, table := .new 4 256 }).1
      report.value = negamax { evaluator := .byKey } 3 ringed ∧ report.depth = 3 ∧
        report.completed = true := by
  have hreach : Position.Reachable grounded ringed := (Position.Reachable.begin rfl).performAll _
  have hrule : ringed.rule.threefoldRepetition = false ∧
      ringed.rule.endgameMoveLimit = ringed.rule.moveLimit := by decide +kernel
  have hspec : ringed.isOver = false ∧ 2 ≤ ringed.legalMoves.length := by decide +kernel
  have hkeys : KeysTellPlies { evaluator := .byKey } ringed 3 := by
    apply keysTellPlies_of_nodup
    decide +kernel
  refine ⟨hreach, hspec.1, hspec.2, hkeys, by decide, ?_⟩
  exact reachable_iterate_value hreach hrule.1 hrule.2 hspec.1 hspec.2 Setup.steady_byKey
    (by decide) (by decide) hkeys rfl rfl rfl .mtdf 1 true

end Morris.Search
