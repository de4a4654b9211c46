import Morris.Proofs.Engine
import Morris.Proofs.Search.Splitting

/-!
# Threads of an engine

To a depth of one or two an engine answers with several threads as it does with one: the same value,
the same move, and found in the same way, in whatever order the workers make their accesses to the
table and their values arrive (`Engine.searchAmong_threads`). What can differ is the number of
nodes.

The children of the root have to have different keys. Then no worker finds in the table what another
one has written, and each comes to the values of its moves as if it were alone.
-/

set_option autoImplicit false

namespace Morris

/-! ## Shuffled roots -/

namespace Position

theorem after_reorder (pos : Position) (order : List Point) (m : Move) :
    (pos.reorder order).after m = (pos.after m).reorder order := by
  rw [after, after, apply_reorder]
  cases pos.apply m with
  | error _ => rfl
  | ok _ => rfl

/-- Different keys after the legal moves stay different in another order of points. -/
theorem nodup_keys_reorder {pos : Position} {order : List Point}
    (horder : order.Perm pos.variant.order)
    (hkeys : (pos.legalMoves.map fun m => (pos.after m).state.key).Nodup) :
    ((pos.reorder order).legalMoves.map fun m =>
      ((pos.reorder order).after m).state.key).Nodup := by
  have hperm := (legalMoves_perm horder).map fun m => (pos.after m).state.key
  simp only [after_reorder, state_reorder]
  exact hperm.nodup_iff.2 hkeys

end Position

/-! ## Answers -/

/-- What matters of an answer: the value, the move, and how it was found. -/
def Outcome.essence (o : Outcome) : Int × Move × Outcome.Kind := (o.value, o.move, o.kind)

namespace Engine

open Search (Concurrent Workforce)

/-- The engine with another number of threads. -/
def withThreads (e : Engine) (threads : Nat) : Engine :=
  { e with options := { e.options with threads := threads } }

/-- What matters of an answer to a search comes from the report. -/
theorem essence_searchDeepAmong (workforce : Workforce) (e : Engine) (pos : Position)
    (history : List Key) :
    let o := e.options
    let setup : Search.Setup :=
      { evaluator := e.evaluator, quietDepth := o.quietDepth.toNat, gameKeys := history }
    let report := (Search.iterateAmong workforce o.algorithm o.threads setup o.maxDepth
      (o.deepening || o.moveTime != 0)
      { position := (e.shuffledRoot pos).1, table := e.table.nextGeneration,
        evaluations := e.evaluations }).1
    (e.searchDeepAmong workforce pos history).1.map Outcome.essence =
      if (answered pos report).isProper then
        .ok (if pos.state.side = .black then -report.value else report.value, answered pos report,
          if report.unique then .unique else .searched)
      else .error (.noResult .noMove) := by
  simp only [searchDeepAmong]
  generalize Search.iterateAmong workforce e.options.algorithm e.options.threads _
    e.options.maxDepth _ _ = found
  by_cases hproper : (answered pos found.1).isProper = true
  · rw [if_pos hproper]
    rw [answered] at hproper ⊢
    simp [hproper, Except.map, Outcome.essence]
  · rw [if_neg hproper]
    rw [answered] at hproper
    simp [hproper, Except.map]

/-- In a reachable position that is not over, that no draw rule ends yet, and after whose legal
moves the keys are all different, alpha-beta and principal variation search to a depth of one or two
over an empty table answer with several threads as with one: with the same value and the same move,
found in the same way, or with the same error. This holds for every evaluator within the value of a
won game that does not stop the search, and for every order in which the workers of the several
threads may make their accesses. -/
theorem searchAmong_threads {rule : Rule} {pos : Position} (h : Position.Reachable rule pos)
    (hover : pos.isOver = false) {history : List Key} (hdraw : drawReason? pos history = none)
    (hkeys : (pos.legalMoves.map fun m => (pos.after m).state.key).Nodup) {e : Engine}
    (hempty : e.table.stored = {})
    (hbounded : ∀ q, -Position.mate ≤ e.evaluator.value q ∧ e.evaluator.value q ≤ Position.mate)
    (hunlimited : e.evaluator.stopAfter = none) (halgorithm : e.options.algorithm ≠ .mtdf)
    (hdepth : e.options.maxDepth = 1 ∨ e.options.maxDepth = 2) {threads : Nat}
    (hthreads : 2 ≤ threads) {workforce : Workforce} (hconcurrent : Concurrent workforce) :
    ((e.withThreads threads).searchAmong workforce pos history).1.map Outcome.essence =
      ((e.withThreads 1).search pos history).1.map Outcome.essence := by
  obtain ⟨order, horder, hstart⟩ := exists_reorder e pos
  have hsteady : Search.Setup.Steady
      { evaluator := e.evaluator, quietDepth := e.options.quietDepth.toNat, gameKeys := history } :=
    ⟨hbounded, hunlimited, rfl⟩
  have houtset : Search.Outset (pos.reorder order)
      { position := pos.reorder order, table := e.table.nextGeneration,
        evaluations := e.evaluations } :=
    ⟨rfl, rfl, hempty⟩
  have hreport := Search.iterateAmong_eq_iterate hsteady
    (startable_reorder h.sound hover hdraw horder) (Position.nodup_keys_reorder horder hkeys)
    houtset (by omega : 1 ≤ e.options.maxDepth) (by omega)
    (e.options.deepening || e.options.moveTime != 0) halgorithm hconcurrent hthreads
  -- the number of threads has no part in where the search starts
  have hstart' : ∀ k, ((e.withThreads k).shuffledRoot pos).1 = pos.reorder order := fun _ => hstart
  rw [search, searchAmong_of_going workforce _ hover hdraw,
    searchAmong_of_going Search.inTurn _ hover hdraw, essence_searchDeepAmong,
    essence_searchDeepAmong, hstart', hstart']
  simp only [withThreads, hreport]
  rfl

/-- The case of a first move in Nine Men's Morris with values told from the keys: principal
variation search with four threads, whose workers take turns, answers as it does with one. -/
theorem searchAmong_threads_opening :
    let pos := Position.ofVariant (.ofRule {})
    let e := new { algorithm := .pvs, maxDepth := 2 } .byKey
    Position.Reachable {} pos ∧ pos.isOver = false ∧ drawReason? pos [pos.state.key] = none ∧
      (pos.legalMoves.map fun m => (pos.after m).state.key).Nodup ∧
      ((e.withThreads 4).searchAmong Search.inTurn pos [pos.state.key]).1.map Outcome.essence =
        ((e.withThreads 1).search pos [pos.state.key]).1.map Outcome.essence := by
  have hreach : Position.Reachable {} (Position.ofVariant (.ofRule {})) := .begin rfl
  have hspec : (Position.ofVariant (.ofRule {})).isOver = false ∧
      drawReason? (Position.ofVariant (.ofRule {}))
        [(Position.ofVariant (.ofRule {})).state.key] = none ∧
      ((Position.ofVariant (.ofRule {})).legalMoves.map fun m =>
        ((Position.ofVariant (.ofRule {})).after m).state.key).Nodup := by
    decide +kernel
  obtain ⟨hover, hdraw, hkeys⟩ := hspec
  exact ⟨hreach, hover, hdraw, hkeys,
    searchAmong_threads hreach hover hdraw hkeys rfl Search.Setup.steady_byKey.bounded rfl
      (by decide) (Or.inr rfl) (by decide) Search.concurrent_inTurn⟩

end Engine

end Morris
