import Mathlib.Data.List.Nodup
import Morris.Proofs.Search.Workers

/-!
# The algorithms agree

All search algorithms compute one and the same value of a position, the one that the tree of its
legal moves has to a depth (`Search.reachable_search_value`). What they do with windows, with the
table and with the moves of the root changes the work but not the value.
-/

set_option autoImplicit false

namespace Morris.Search

/-- Alpha-beta, principal variation search and MTD(f), with one worker or with several, find the
depth-limited negamax value of every reachable position that is not over and has a choice of moves.
The table is empty at first, nothing stops the search, neither repetitions nor a shorter limit for
endgames draw, and nodes that the table cannot tell apart have equal values. A guess of the value
may be given, good or bad. -/
theorem reachable_search_value {rule : Rule} {pos : Position} (h : Position.Reachable rule pos)
    (hrepetition : pos.rule.threefoldRepetition = false)
    (hlimits : pos.rule.endgameMoveLimit = pos.rule.moveLimit) (hover : pos.isOver = false)
    (hchoice : 2 ≤ pos.legalMoves.length) {setup : Setup} (hsetup : setup.Steady) {depth : Nat}
    (hpositive : 1 ≤ depth) (hdeepest : (depth : Int) ≤ depthLimit)
    (hkeys : KeysTell setup pos depth) {w : Walk} (hw : w.position = pos)
    (hgoing : w.stopped = false) (hempty : w.table.stored = {}) {guess : Option Int}
    (hguess : ∀ g ∈ guess, -infinite ≤ g ∧ g ≤ infinite) (a : Algorithm) (threads : Nat) :
    (a.search threads setup depth guess w).1.value = negamax setup depth pos := by
  have hroot : Root setup pos depth :=
    ⟨⟨hsetup, ⟨h.sound, hrepetition, hlimits⟩, hdeepest, hkeys⟩, hover, hchoice, hpositive⟩
  have hready : Ready (Valued setup pos depth) w :=
    ⟨hgoing, Table.truthful_of_stored_eq_empty hempty⟩
  simp only [Algorithm.search, Algorithm.searchAmong]
  split
  · rename_i hsplits
    simp only [Algorithm.splitsRoot, Bool.and_eq_true, decide_eq_true_eq] at hsplits
    exact split_value hroot a.flavour hsplits.2 hw hready
  · cases a with
    | alphaBeta => exact fullWindow_value hroot .plain .none hw hready
    | pvs =>
        cases guess with
        | none => exact fullWindow_value hroot .principal .none hw hready
        | some g => exact aspiration_value hroot (hguess g rfl) hw hready
    | mtdf => exact closeIn_value hroot (guess.getD 0) hw hready

/-- In a tree of depth two, only the top and the positions after its moves have depth left. -/
theorem InTree.of_depth_two {top pos : Position} {d : Nat} (h : InTree top 2 pos (d + 1)) :
    (pos = top ∧ d = 1) ∨ (d = 0 ∧ ∃ m ∈ top.legalMoves, pos = top.after m) := by
  cases h with
  | top => exact Or.inl ⟨rfl, rfl⟩
  | child hparent _ hm =>
      cases hparent with
      | top => exact Or.inr ⟨rfl, _, hm, rfl⟩
      | child habove _ _ =>
          have hle := habove.le
          omega

/-- The keys of a tree of depth two tell its values if they are all different. -/
theorem keysTell_two {setup : Setup} {top : Position}
    (h : (top.state.key :: top.legalMoves.map fun m => (top.after m).state.key).Nodup) :
    KeysTell setup top 2 := by
  obtain ⟨htop, hchildren⟩ := List.nodup_cons.1 h
  have hnot : ∀ m ∈ top.legalMoves, top.state.key ≠ (top.after m).state.key :=
    fun m hm heq => htop (List.mem_map.2 ⟨m, hm, heq.symm⟩)
  intro pos next d e hpos hnext _ _ hkey
  rcases hpos.of_depth_two with ⟨rfl, rfl⟩ | ⟨rfl, m, hm, rfl⟩ <;>
    rcases hnext.of_depth_two with ⟨rfl, rfl⟩ | ⟨rfl, m', hm', rfl⟩
  · rfl
  · exact absurd hkey (hnot m' hm')
  · exact absurd hkey.symm (hnot m hm)
  · rw [List.inj_on_of_nodup_map hchildren hm hm' hkey]

/-- Nine Men's Morris without draws by repetition, before the first move. -/
def opening : Position := .ofVariant (.ofRule { threefoldRepetition := false })

/-- The case of a bad guess, with values told from the keys: principal variation search of the first
move and the reply has to search the root again with the full window. -/
theorem reachable_search_value_opening :
    Position.Reachable { threefoldRepetition := false } opening ∧
      opening.isOver = false ∧ 2 ≤ opening.legalMoves.length ∧
      KeysTell { evaluator := .byKey } opening 2 ∧
      (Algorithm.pvs.search 1 { evaluator := .byKey } 2 (some 100)
          { position := opening, table := .new 4 256 }).1.value =
        negamax { evaluator := .byKey } 2 opening := by
  have hreach : Position.Reachable { threefoldRepetition := false } opening := .begin rfl
  have hover : opening.isOver = false := by decide +kernel
  have hchoice : 2 ≤ opening.legalMoves.length := by decide +kernel
  have hkeys : KeysTell { evaluator := .byKey } opening 2 := by
    apply keysTell_two
    decide +kernel
  refine ⟨hreach, hover, hchoice, hkeys, ?_⟩
  exact reachable_search_value hreach rfl rfl hover hchoice Setup.steady_byKey (by decide)
    (by decide) hkeys rfl rfl rfl (by rintro g ⟨⟩; decide) .pvs 1

end Morris.Search
