import Morris.Engine.Options
import Morris.Position.Command
import Morris.Search.Deepening

/-!
# Engines

An engine picks a move in a position of a game, given the keys that the game has reached. If a draw
rule already applies it answers with a draw; otherwise it searches by iterative deepening, on the
order of points shuffled anew if its options say so. Its table lives on from search to search, with
a new generation for each, and its random generator goes on drawing. Values are reported for White.

An engine reads no clock: a limit of time turns deepening on and never runs out.
-/

set_option autoImplicit false

namespace Morris

/-- An engine with everything that it keeps between searches. -/
structure Engine where
  options : EngineOptions
  evaluator : Evaluator
  table : Table
  generator : Random.Generator
  /-- Evaluations made so far. -/
  evaluations : Nat := 0

/-- How an engine came to its answer. -/
inductive Outcome.Kind where
  | searched
  | unique
  | draw (reason : Ending)
  deriving DecidableEq, Repr, Inhabited

/-- The answer of an engine. -/
structure Outcome where
  /-- Value of the position for White. -/
  value : Int
  move : Move
  record : String
  kind : Outcome.Kind
  depth : Int
  nodes : Nat
  evaluator : String
  deriving DecidableEq, Repr, Inhabited

namespace Outcome

/-- The answer to a position that a draw rule already ends. -/
def ofDraw (reason : Ending) : Outcome :=
  { value := 0, move := .none, record := drawRecord, kind := .draw reason, depth := 0, nodes := 0
    evaluator := "rule" }

/-- The line that an engine prints for its answer. -/
def answerLine (o : Outcome) : String := s!"info score {o.value} bestmove {o.record}"

/-- The line of an answer with the name of the evaluator. -/
def text (o : Outcome) : String := s!"{o.answerLine} ({o.evaluator})"

end Outcome

namespace Engine

/-- An engine with an evaluator of its own. -/
def new (options : EngineOptions) (evaluator : Evaluator) : Engine where
  options := options
  evaluator := evaluator
  table := .new options.tableShards options.tableBuckets
  generator := .ofSeed (UInt64.ofNat options.seed)

/-- An engine with the evaluator that its options describe. -/
def ofOptions (options : EngineOptions) : Engine :=
  new options (.handcrafted options.withMobility)

/-- Replace the options, and with them the table, the evaluator and the generator if an option that
they depend on has changed. -/
def withOptions (e : Engine) (options : EngineOptions) : Engine :=
  let old := e.options
  { e with
    options := options
    table :=
      if options.tableShards = old.tableShards ∧ options.tableBuckets = old.tableBuckets then
        e.table
      else .new options.tableShards options.tableBuckets
    evaluator :=
      if options.withMobility = old.withMobility then e.evaluator
      else .handcrafted options.withMobility
    generator :=
      if options.seed = old.seed then e.generator else .ofSeed (UInt64.ofNat options.seed) }

/-- Set one option by name. -/
def setOption (e : Engine) (name value : String) : Except Error Engine :=
  (e.options.setOption name value).map e.withOptions

/-- Forget every stored result. -/
def clear (e : Engine) : Engine := { e with table := e.table.clear }

/-- The draw rule that already applies, in a position where men may slide. -/
def drawReason? (pos : Position) (history : List Key) : Option Ending :=
  let maySlide := pos.state.phase == .moving
    || (pos.state.phase == .placing && pos.rule.mayMoveWhilePlacing)
  if !maySlide then none
  else if pos.rule.moveLimit ≤ pos.state.quiet then some .drawnByMoveLimit
  else if pos.isEndgameLimitReached then some .drawnByEndgameLimit
  else if pos.rule.threefoldRepetition && decide (3 ≤ history.count pos.state.key) then
    some .drawnByRepetition
  else none

/-- The position to search, with its order shuffled if the options say so. -/
def shuffledRoot (e : Engine) (pos : Position) : Position × Random.Generator :=
  if e.options.shuffle then
    let (variant, generator) := pos.variant.reshuffled e.generator
    ({ pos with variant := variant }, generator)
  else (pos, e.generator)

/-- Search a position that no draw rule ends yet, with a workforce for several threads. -/
def searchDeepAmong (workforce : Search.Workforce) (e : Engine) (pos : Position)
    (history : List Key) : Except Error Outcome × Engine :=
  let o := e.options
  let (start, generator) := e.shuffledRoot pos
  let setup : Search.Setup :=
    { evaluator := e.evaluator, quietDepth := o.quietDepth.toNat, gameKeys := history }
  let walk : Search.Walk :=
    { position := start, table := e.table.nextGeneration, evaluations := e.evaluations }
  let (report, walk) :=
    Search.iterateAmong workforce o.algorithm o.threads setup o.maxDepth
      (o.deepening || o.moveTime != 0) walk
  let after : Engine :=
    { e with table := walk.table, generator := generator, evaluations := walk.evaluations }
  let move := if report.move.isProper then report.move else bestRanked (pos.rankedMoves .none)
  if !move.isProper then (.error (.noResult .noMove), after)
  else
    let outcome : Outcome :=
      { value := if pos.state.side = .black then -report.value else report.value
        move := move
        record := move.text
        kind := if report.unique then .unique else .searched
        depth := report.depth
        nodes := walk.nodes
        evaluator := e.evaluator.name }
    (.ok outcome, after)

/-- Pick a move for the side to move, with a workforce for several threads. -/
def searchAmong (workforce : Search.Workforce) (e : Engine) (pos : Position) (history : List Key) :
    Except Error Outcome × Engine :=
  if pos.isOver then (.error (.noResult .gameOver), e)
  else
    match drawReason? pos history with
    | some reason => (.ok (.ofDraw reason), e)
    | none => e.searchDeepAmong workforce pos history

/-- Search a position that no draw rule ends yet. -/
def searchDeep (e : Engine) (pos : Position) (history : List Key) :
    Except Error Outcome × Engine :=
  e.searchDeepAmong Search.inTurn pos history

/-- Pick a move for the side to move. -/
def search (e : Engine) (pos : Position) (history : List Key) : Except Error Outcome × Engine :=
  e.searchAmong Search.inTurn pos history

end Engine

end Morris
