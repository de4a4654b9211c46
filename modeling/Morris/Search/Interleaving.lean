import Morris.Search.Algorithm

/-!
# Interleaved workers

Workers that split the root run at the same time. What they share is the table and the channel on
which their values arrive, and each look-up, each record and each message takes effect at once,
under a lock. So a run of the workers is an interleaving of their accesses, in any order, and
between two accesses a worker computes on data of its own. `Task` is such a computation, told as the
accesses that are left; `Interleaved` is a run of several tasks to their ends; `Gathers` says what
may become of the root moves when they are dealt to workers, and `Concurrent` which workforces do
nothing else.

Each search below reads as in `Negamax` and `Algorithm`, with its accesses to the table told apart.
Workers count nodes and evaluations for themselves, and which numbers the evaluations get is left
open. The flag that stops a search is shared as well, but it is no access here: where nothing stops
the search (`Concurrent`) nobody raises it, and where something may (`Interruptible`) each worker
finds it raised at a time of its own.
-/

set_option autoImplicit false

namespace Morris.Search

/-- What the workers share: the table, and the values that have arrived, the first one first. -/
structure Shared where
  table : Table
  arrived : List MoveValue := []

/-- A computation of which the accesses to shared data are told apart. An access changes the data
and goes on with what it leaves. -/
inductive Task (α : Type) where
  | done (a : α)
  | access (act : Shared → Shared) (next : Shared → Task α)

namespace Task

/-- One computation after another. -/
def bind {α β : Type} : Task α → (α → Task β) → Task β
  | done a, f => f a
  | access act next, f => access act fun s => (next s).bind f

/-- Run a task to its end while nobody else accesses the data. -/
def alone {α : Type} : Task α → Shared → α × Shared
  | done a, s => (a, s)
  | access act next, s => (next (act s)).alone (act s)

/-! ## Searches -/

/-- A search as a task. -/
abbrev Searcher := Int → Int → Walk → Task (Int × Walk)

/-- The value of a child for its parent. -/
def childValue (search : Searcher) (flips : Bool) : Searcher := fun alpha beta w =>
  if flips then (search (-beta) (-alpha) w).bind fun answer => done (-answer.1, answer.2)
  else search alpha beta w

/-- A child after the first in the principal flavour. -/
def scout (search : Searcher) (flips : Bool) : Searcher := fun alpha beta w =>
  (childValue search flips alpha (alpha + scoutWidth) w).bind fun answer =>
    if alpha < answer.1 ∧ answer.1 < beta ∧ ¬answer.2.stopped then
      childValue search flips alpha beta answer.2
    else done answer

/-- A child, by the flavour and the number of moves before it. -/
def child (flavour : Flavour) (search : Searcher) (index : Nat) (flips : Bool) : Searcher :=
  if flavour = .principal ∧ 0 < index then scout search flips else childValue search flips

/-- Search the children of a node one after another. -/
def tryMoves (child : Nat → Bool → Searcher) (beta : Int) :
    Nat → List RankedMove → Progress → Walk → Task (Progress × Walk)
  | _, [], p, w => done (p, w)
  | i, r :: rest, p, w =>
      match w.play? r.move with
      | none => tryMoves child beta (i + 1) rest p w
      | some (flips, w) =>
          (child i flips p.alpha beta w).bind fun answer =>
            let v := answer.1
            let w := answer.2.takeBack
            if w.stopped then done (p, w)
            else if p.best < v then
              let found := { p with best := v, bestMove := r.move }
              if p.alpha < v then
                let found := { found with raised := some r.move }
                if beta ≤ v then done (found, w)
                else tryMoves child beta (i + 1) rest { found with alpha := v } w
              else tryMoves child beta (i + 1) rest found w
            else tryMoves child beta (i + 1) rest p w

/-- The value of a node whose moves have been searched; a complete search is recorded. -/
def finishNode (setup : Setup) (depth alpha beta : Int) (p : Progress) (w : Walk) :
    Task (Int × Walk) :=
  if w.stopped then done (Search.finishNode setup depth alpha beta p w)
  else
    access
      (fun s =>
        let key := w.position.state.key
        let bound := boundOf alpha beta p.best
        { s with table := s.table.save key depth (some bound) p.best p.bestMove })
      fun s => done (p.best, { w with table := s.table })

/-- Take the value of a node from the table, as the walk has it, or else search its moves. -/
def expand (setup : Setup) (child : Nat → Bool → Searcher) (depth : Int) : Searcher :=
  fun alpha beta w =>
    let probe := w.table.probe w.position.state.key depth alpha beta
    match probe.cutoff with
    | some v => done (v, w)
    | none =>
        let ranked := w.position.rankedMoves probe.move
        if ranked.isEmpty then done (staticValue setup depth w)
        else
          (tryMoves child probe.beta 0 ranked { alpha := probe.alpha } w).bind fun found =>
            finishNode setup depth probe.alpha probe.beta found.1 found.2

/-- Alpha-beta search of a node below the root with some depth left. -/
def node (setup : Setup) (flavour : Flavour) : Nat → Searcher
  | 0, alpha, beta, w => done (horizon setup 0 alpha beta w)
  | d + 1, alpha, beta, w =>
      let depth : Int := d + 1
      let w := w.visit setup
      if w.isAtEnd then done (staticValue setup depth w)
      else
        let drawn := isPastMoveLimit w.position
        let alpha := if drawn then 0 else alpha
        if drawn ∧ beta ≤ alpha then done (alpha, w)
        else if isRepetition setup w then done (0, w)
        else
          access id fun s =>
            expand setup (child flavour (node setup flavour d)) depth alpha beta
              { w with table := s.table }

/-- Search of a node below the root whatever depth is left. -/
def descend (setup : Setup) (flavour : Flavour) (depth : Int) : Searcher :=
  if depth ≤ 0 then fun alpha beta w => done (horizon setup depth alpha beta w)
  else node setup flavour depth.toNat

/-- The moves of one worker, searched one after another with the full window. Each value is sent as
soon as it is found. -/
def workThrough (setup : Setup) (flavour : Flavour) (depth : Int) :
    List (Nat × Move) → Walk → Task Walk
  | [], w => done w
  | (i, m) :: rest, w =>
      if w.stopped then done w
      else
        match w.play? m with
        | none => workThrough setup flavour depth rest w
        | some (flips, w) =>
            (childValue (descend setup flavour (depth - 1)) flips (-infinite) infinite w).bind
              fun answer =>
                let w := answer.2.takeBack
                if w.stopped then done w
                else
                  access (fun s => { s with arrived := s.arrived ++ [⟨i, m, answer.1⟩] })
                    fun _ => workThrough setup flavour depth rest w

end Task

/-! ## Runs of several workers -/

/-- The tasks of a crew run to their ends: as long as one is left, any one of them makes its next
access. -/
inductive Interleaved {α : Type} : List (Task α) → Shared → List α → Shared → Prop
  | ended (ends : List α) (s : Shared) : Interleaved (ends.map .done) s ends s
  | turn {before after : List (Task α)} {act : Shared → Shared} {next : Shared → Task α}
      {s last : Shared} {ends : List α} :
      Interleaved (before ++ next (act s) :: after) (act s) ends last →
      Interleaved (before ++ .access act next :: after) s ends last

/-- One of the workers among whom the root moves are dealt. It has its own copy of the walk, with
the table as it has seen it last, and its own counts. -/
def worker (setup : Setup) (flavour : Flavour) (depth : Int) (moves : List (Nat × Move))
    (workers : Nat) (w : Walk) (evaluations k : Nat) : Task Walk :=
  .access id fun s =>
    Task.workThrough setup flavour depth (moves.filter fun m => m.1 % workers == k)
      { w with table := s.table, nodes := 0, evaluations := evaluations }

/-- What a run of the workers leaves: the values as they have arrived, and the walk with the table
and all nodes. -/
def Gathers (setup : Setup) (flavour : Flavour) (depth : Int) (moves : List (Nat × Move))
    (workers : Nat) (w : Walk) (found : List MoveValue × Walk) : Prop :=
  ∃ (evaluations : Nat → Nat) (ends : List Walk) (last : Shared) (count : Nat),
    Interleaved
      ((List.range workers).map fun k =>
        worker setup flavour depth moves workers w (evaluations k) k)
      { table := w.table } ends last ∧
    found = (last.arrived,
      { w with
        table := last.table
        nodes := w.nodes + (ends.map Walk.nodes).foldr (· + ·) 0
        evaluations := count
        stopped := ends.any Walk.stopped })

/-- A workforce of which, in a search that nothing stops, the outcome is always that of a run of the
workers at the same time. -/
def Concurrent (workforce : Workforce) : Prop :=
  ∀ (setup : Setup) flavour depth moves workers w, setup.evaluator.stopAfter = none →
    setup.timeIsUp = false → setup.stopAt = none → w.stopped = false →
    Gathers setup flavour depth moves workers w (workforce setup flavour depth moves workers w)

/-! ## Searches that are stopped -/

/-- When a worker finds that the search has been stopped: before its first move, at a node or by an
evaluation, each by the number that the worker gives it. -/
structure Stop where
  atOnce : Bool := false
  node : Option Nat := none
  evaluation : Option Nat := none

/-- The setup of a worker that is stopped at a time of its own. -/
def Setup.stopping (setup : Setup) (stop : Stop) : Setup :=
  { setup with
    evaluator := { setup.evaluator with stopAfter := stop.evaluation }
    stopAt := stop.node }

/-- What a run of the workers may leave in a search that may be stopped, by one of them or from
outside. Each worker is stopped at a time of its own or not at all. If one of them has been stopped,
so has the search. -/
def GathersUntilStopped (setup : Setup) (flavour : Flavour) (depth : Int)
    (moves : List (Nat × Move)) (workers : Nat) (w : Walk) (found : List MoveValue × Walk) : Prop :=
  ∃ (stops : Nat → Stop) (evaluations : Nat → Nat) (ends : List Walk) (last : Shared) (count : Nat)
    (stopped : Bool),
    Interleaved
      ((List.range workers).map fun k =>
        worker (setup.stopping (stops k)) flavour depth moves workers
          { w with stopped := (stops k).atOnce } (evaluations k) k)
      { table := w.table } ends last ∧
    (ends.any Walk.stopped = true → stopped = true) ∧
    found = (last.arrived,
      { w with
        table := last.table
        nodes := w.nodes + (ends.map Walk.nodes).foldr (· + ·) 0
        evaluations := count
        stopped := stopped })

/-- A workforce of which, in every search, the outcome is that of a run of the workers at the same
time, who may be stopped. -/
def Interruptible (workforce : Workforce) : Prop :=
  ∀ (setup : Setup) flavour depth moves workers w, w.stopped = false →
    GathersUntilStopped setup flavour depth moves workers w
      (workforce setup flavour depth moves workers w)

end Morris.Search
