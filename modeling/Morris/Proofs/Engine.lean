import Morris.Engine
import Morris.Proofs.Reorder
import Morris.Proofs.Search.Interrupted

/-!
# Answers of an engine

An engine that searches answers with a legal move of the position whenever there is one, and fails
only if there is none, in whatever order its workers make their accesses
(`Engine.searchAmong_legal`). The move is the one that the search has in hand or, if it has none,
the first of the ranked moves; the order of points on which the search runs may be shuffled, which
permutes the legal moves (`Position.legalMoves_perm`).
-/

set_option autoImplicit false

namespace Morris

namespace Engine

open Search (Concurrent Interruptible Workforce)

variable {pos : Position} {workforce : Workforce}

/-! ## Where a search starts -/

/-- A position in which no draw rule applies has not passed a limit on quiet moves. -/
theorem isPastMoveLimit_of_no_draw (h : pos.Sound) (hover : pos.isOver = false)
    {history : List Key} (hdraw : drawReason? pos history = none) :
    Search.isPastMoveLimit pos = false := by
  have hquiet := h.quiet_le hover
  have hendgame : pos.isEndgameLimitReached = false := by
    cases hphase : pos.state.phase with
    | ready =>
        -- no side has three men before the game
        have hnone : ∀ c, pos.state.onBoard.get c = 0 := by
          intro c
          rw [h.count c, List.countP_eq_zero]
          intro p _
          rw [(h.stage.untouched_of_ready hphase).content p, beq_iff_eq]
          exact fun heq => Side.man_ne_empty c heq.symm
        have hwhite : pos.state.onBoard.white = 0 := hnone .white
        have hblack : pos.state.onBoard.black = 0 := hnone .black
        simp [Position.isEndgameLimitReached, Position.isEndgame, hwhite, hblack]
    | placing => simp [Position.isEndgameLimitReached, Position.isEndgame, hphase]
    | moving =>
        by_contra hreached
        simp only [drawReason?, hphase, eq_true_of_ne_false hreached, if_true] at hdraw
        split_ifs at hdraw
        contradiction
    | finished => simp [Position.isOver, hphase] at hover
  simp [Search.isPastMoveLimit, hquiet, hendgame]

/-- The position that a search runs on is the one given up to the order of points, which is
permuted. -/
theorem exists_reorder (e : Engine) (pos : Position) : ∃ order : List Point,
    order.Perm pos.variant.order ∧ (e.shuffledRoot pos).1 = pos.reorder order := by
  simp only [shuffledRoot]
  split
  · exact ⟨_, Random.permutes_shuffle.shuffleRunsBy Board.groupSizes pos.variant.order e.generator,
      rfl⟩
  · exact ⟨pos.variant.order, .refl _, rfl⟩

theorem startable_reorder (h : pos.Sound) (hover : pos.isOver = false)
    {history : List Key} (hdraw : drawReason? pos history = none) {order : List Point}
    (horder : order.Perm pos.variant.order) : Search.Startable (pos.reorder order) :=
  have hlimit : Search.isPastMoveLimit (pos.reorder order) = Search.isPastMoveLimit pos := rfl
  ⟨h.of_state rfl rfl (horder.trans h.order), hover,
    hlimit.trans (isPastMoveLimit_of_no_draw h hover hdraw)⟩

/-! ## The answer -/

/-- Without a move in hand the engine takes the first of the ranked moves, which is legal if any
move is. -/
theorem bestRanked_spec (pos : Position) (remembered : Move) :
    (pos.legalMoves = [] → bestRanked (pos.rankedMoves remembered) = .none) ∧
      (pos.legalMoves ≠ [] → bestRanked (pos.rankedMoves remembered) ∈ pos.legalMoves) := by
  have hlength := pos.length_rankedMoves remembered
  have hranked : ∀ r ∈ pos.rankedMoves remembered, r.move ∈ pos.legalMoves :=
    fun r hr => Position.mem_legalMoves_of_ranked hr
  cases hlist : pos.rankedMoves remembered with
  | nil =>
      rw [hlist] at hlength
      exact ⟨fun _ => rfl, fun hne => absurd (List.eq_nil_of_length_eq_zero hlength.symm) hne⟩
  | cons r rest =>
      rw [hlist] at hranked
      have hmem := hranked r List.mem_cons_self
      refine ⟨fun hnil => ?_, fun _ => hmem⟩
      rw [hnil] at hmem
      cases hmem

/-- The move of the answer to a search: the one in hand or, without one, the first of the ranked
moves. -/
def answered (pos : Position) (report : Search.Report) : Move :=
  if report.move.isProper then report.move else bestRanked (pos.rankedMoves .none)

/-- What an engine makes of the report of a search. -/
structure Reports (pos : Position) (report : Search.Report) (answer : Except Error Outcome) :
    Prop where
  refused : (answered pos report).isProper = false → answer = .error (.noResult .noMove)
  answers : (answered pos report).isProper = true → ∃ o, answer = .ok o ∧
    o.move = answered pos report ∧ o.record = (answered pos report).text ∧
    o.kind = if report.unique then .unique else .searched

/-- Where the game goes on and no draw rule applies, the engine searches. -/
theorem searchAmong_of_going (workforce : Workforce) (e : Engine)
    (hover : pos.isOver = false) {history : List Key} (hdraw : drawReason? pos history = none) :
    e.searchAmong workforce pos history = e.searchDeepAmong workforce pos history := by
  simp only [searchAmong, hover, hdraw, Bool.false_eq_true, if_false]

/-- The search reports a legal move or none, and whether there is only one. -/
theorem exists_report (e : Engine) (hempty : e.table.stored = {}) (h : pos.Sound)
    (hover : pos.isOver = false) {history : List Key} (hdraw : drawReason? pos history = none)
    (hworkforce : (Concurrent workforce ∧ e.evaluator.stopAfter = none) ∨
      Interruptible workforce) :
    ∃ report : Search.Report, Reports pos report (e.searchDeepAmong workforce pos history).1 ∧
      (report.move.isProper = true → report.move ∈ pos.legalMoves) ∧
      (report.unique = true ↔ pos.legalMoves.length = 1) := by
  obtain ⟨order, horder, hstart⟩ := exists_reorder e pos
  have hperm := Position.legalMoves_perm horder
  have hserves : Search.Serves workforce
      { evaluator := e.evaluator, quietDepth := e.options.quietDepth.toNat, gameKeys := history } :=
    Search.serves_of_runs (hworkforce.imp_left fun hruns => ⟨hruns.1, hruns.2, rfl⟩)
  have hlegal := Search.iterateAmong_legal hserves (startable_reorder h hover hdraw horder) rfl
    e.options.algorithm e.options.threads e.options.maxDepth
    (e.options.deepening || e.options.moveTime != 0)
    (w := { position := pos.reorder order, table := e.table.nextGeneration,
            evaluations := e.evaluations }) rfl rfl hempty
  simp only [searchDeepAmong, hstart]
  generalize Search.iterateAmong workforce e.options.algorithm e.options.threads _
    e.options.maxDepth _ _ = found at hlegal ⊢
  obtain ⟨hmove, hunique⟩ := hlegal
  -- the search went through the shuffled order, the claim is about the legal moves
  rw [hperm.mem_iff] at hmove
  rw [hperm.length_eq] at hunique
  refine ⟨found.1, ⟨fun himproper => ?_, fun hproper => ?_⟩, hmove, hunique⟩
  · rw [answered] at himproper
    simp [himproper]
  · rw [answered] at hproper
    simp [hproper, answered]

/-- With a report of a legal move or none, the engine answers exactly if there is a legal move, and
with one. -/
theorem Reports.legal {report : Search.Report} {answer : Except Error Outcome}
    (h : Reports pos report answer) (hsound : pos.Sound) (hover : pos.isOver = false)
    (hmove : report.move.isProper = true → report.move ∈ pos.legalMoves)
    (hunique : report.unique = true ↔ pos.legalMoves.length = 1) :
    ((∃ o, answer = .ok o) ↔ pos.legalMoves ≠ []) ∧
      ∀ o, answer = .ok o → o.move ∈ pos.legalMoves ∧ o.record = o.move.text ∧
        o.kind = if pos.legalMoves.length = 1 then .unique else .searched := by
  obtain ⟨hnone, hbest⟩ := bestRanked_spec pos .none
  by_cases hnil : pos.legalMoves = []
  · -- no move is in hand, and none is ranked
    have himproper : (answered pos report).isProper = false := by
      rw [answered, hnone hnil]
      split
      · rename_i hproper
        have hmem := hmove hproper
        rw [hnil] at hmem
        cases hmem
      · rfl
    rw [h.refused himproper]
    exact ⟨⟨nofun, fun hne => absurd hnil hne⟩, nofun⟩
  · have hlegal : answered pos report ∈ pos.legalMoves := by
      rw [answered]
      split
      · rename_i hproper
        exact hmove hproper
      · exact hbest hnil
    have hphase : pos.state.phase ≠ .finished := by
      simpa [Position.isOver] using hover
    obtain ⟨o, rfl, homove, horecord, hokind⟩ :=
      h.answers (hsound.isProper_of_mem_legalMoves hphase hlegal)
    refine ⟨⟨fun _ => hnil, fun _ => ⟨o, rfl⟩⟩, ?_⟩
    rintro _ ⟨⟩
    rw [homove, horecord, hokind]
    exact ⟨hlegal, rfl, by simp only [hunique]⟩

/-- In a reachable position that is not over, and in which no draw rule applies, a new engine
without a limit of time answers exactly if there is a legal move, whatever its options and its
evaluator. The move of the answer is then legal, the record is that of the move, and the answer is
marked as the only one if there is one legal move, and as found by a search if there are more. With
several threads this holds in whatever order the workers make their accesses, for every concurrent
workforce; and if the evaluator stops the search, at whatever points it stops the workers. Workers
one after another are a case of both. -/
theorem searchAmong_legal {rule : Rule} (h : Position.Reachable rule pos)
    (hover : pos.isOver = false) {history : List Key} (hdraw : drawReason? pos history = none)
    (options : EngineOptions) (evaluator : Evaluator)
    (hworkforce : (Concurrent workforce ∧ evaluator.stopAfter = none) ∨ Interruptible workforce) :
    let e := new { options with moveTime := 0 } evaluator
    let answer := (e.searchAmong workforce pos history).1
    ((∃ o, answer = .ok o) ↔ pos.legalMoves ≠ []) ∧
      ∀ o, answer = .ok o → o.move ∈ pos.legalMoves ∧ o.record = o.move.text ∧
        o.kind = if pos.legalMoves.length = 1 then .unique else .searched := by
  intro e answer
  obtain ⟨report, hreports, hmove, hunique⟩ :=
    exists_report e rfl h.sound hover hdraw hworkforce
  rw [← searchAmong_of_going workforce e hover hdraw] at hreports
  exact hreports.legal h.sound hover hmove hunique

/-- White has closed a mill in Nine Men's Morris and may remove one of two men. Four threads, whose
workers take turns, find one of the two by a search. -/
theorem searchAmong_legal_removal :
    Position.Reachable {} Position.millClosed ∧ Position.millClosed.isOver = false ∧
      drawReason? Position.millClosed [] = none ∧
      ∃ o, ((new { algorithm := .pvs, threads := 4 } (.handcrafted true)).searchAmong Search.inTurn
          Position.millClosed []).1 = .ok o ∧
        o.move ∈ [Move.remove 24, Move.remove 26] ∧ o.kind = .searched := by
  have hreach : Position.Reachable {} Position.millClosed :=
    (Position.Reachable.begin rfl).performAll _
  have hspec : Position.millClosed.isOver = false ∧ drawReason? Position.millClosed [] = none ∧
      Position.millClosed.legalMoves.Perm [Move.remove 24, Move.remove 26] := by
    decide +kernel
  obtain ⟨hover, hdraw, hmoves⟩ := hspec
  obtain ⟨hanswers, hlegal⟩ := searchAmong_legal hreach hover hdraw
    { algorithm := .pvs, threads := 4 } (.handcrafted true)
    (Or.inl ⟨Search.concurrent_inTurn, rfl⟩)
  obtain ⟨o, ho⟩ := hanswers.2 fun hnil => by
    rw [hnil] at hmoves
    exact absurd hmoves.length_eq (by decide)
  obtain ⟨hmove, _, hkind⟩ := hlegal o ho
  rw [hmoves.length_eq] at hkind
  exact ⟨hreach, hover, hdraw, o, ho, hmoves.mem_iff.1 hmove, hkind⟩

end Engine

end Morris
