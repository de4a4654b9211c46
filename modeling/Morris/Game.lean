import Morris.Position.Command
import Morris.Position.Image

/-!
# Games

A game keeps its position, the accepted records with the position before each of them, and the keys
reached by slides since the last placement or removal, after which no earlier position can recur.
With the threefold rule, the third occurrence of a key ends the game as a draw. Stepping back and
taking the image under a symmetry rebuild the keys from the positions.
-/

set_option autoImplicit false

namespace Morris

/-- An accepted record and the position in which it was accepted. -/
structure Step where
  before : Position
  record : String
  deriving DecidableEq, Repr, Inhabited

/-- A game in progress or finished. -/
structure Game where
  position : Position
  /-- The accepted records, the first one first. -/
  steps : List Step := []
  /-- Keys after the slides since the last placement or removal, the first one first. -/
  keys : List Key := []
  deriving DecidableEq, Repr, Inhabited

namespace Game

/-- A game that begins at a position. -/
def ofPosition (pos : Position) : Game := { position := pos }

/-- A game under a valid rule. -/
def ofRule (rule : Rule) : Except Error Game := (Position.ofRule rule).map ofPosition

/-- The accepted records, the first one first. -/
def records (g : Game) : List String := g.steps.map (·.record)

/-- Start over under the current rule, without records. -/
def reset (g : Game) : Game := ofPosition g.position.reset

/-- Whether the current key has occurred three times. -/
def hasCycle (g : Game) : Bool := decide (3 ≤ g.keys.count g.position.state.key)

/-- The keys after a move of some kind: a slide adds the key reached, a placement or removal leaves
nothing to return to. -/
def noteMove (kind : Move.Kind) (key : Key) (keys : List Key) : List Key :=
  match kind with
  | .slide => keys ++ [key]
  | _ => []

/-- End the game as a draw if its position has occurred three times under the threefold rule. -/
def drawIfRepeated (g : Game) : Game :=
  if g.position.rule.threefoldRepetition && !g.position.isOver && g.hasCycle then
    { g with position := g.position.declareRepetition }
  else g

/-- Play a record that the position has accepted, given the position that it led to. A record that
chooses another rule starts a new record list. A move is recorded in its own form, another change by
the record of the new position, and a record without effect as it came. -/
def accept (g : Game) (text : String) (next : Position) : Game :=
  let before := g.position
  if before.rule ≠ next.rule then { position := next, steps := [⟨before, text⟩], keys := [] }
  else
    let moved := next.state ≠ before.state ∧ next.state.ply = before.state.ply + 1
    let record :=
      if moved then next.state.lastMove.text
      else if next.state ≠ before.state then next.record
      else text
    let keys :=
      if moved then noteMove next.state.lastMove.kind next.state.key g.keys else g.keys
    drawIfRepeated { position := next, steps := g.steps ++ [⟨before, record⟩], keys := keys }

/-- Play a record; `none` refuses it. A blank one starts over. -/
def command (g : Game) (text : String) : Option Game :=
  let text := Text.trimString text
  if text.isEmpty then some g.reset
  else (g.position.command text).map (g.accept text)

/-- The keys that the positions before the records and the one after them give. -/
def rebuildKeys (positions : List Position) : List Key :=
  (positions.zip positions.tail).foldl
    (fun keys (before, next) =>
      if next.state.ply = before.state.ply + 1 ∧ before.rule = next.rule then
        noteMove next.state.lastMove.kind next.state.key keys
      else keys)
    []

/-- The game with its keys rebuilt. -/
def withRebuiltKeys (g : Game) : Game :=
  { g with keys := rebuildKeys (g.steps.map (·.before) ++ [g.position]) }

/-- Return to the position after the first `n` records; `none` if there are not that many. -/
def rewind? (g : Game) (n : Nat) : Option Game :=
  if g.steps.length < n then none
  else
    match g.steps[n]? with
    | none => some g
    | some step =>
        some (withRebuiltKeys { g with position := step.before, steps := g.steps.take n })

/-- Take back the last record. -/
def undo? (g : Game) : Option Game :=
  if g.steps.isEmpty then none else g.rewind? (g.steps.length - 1)

/-- Image of a game under a symmetry of the board. -/
def image (g : Game) (t : Symmetry) : Game :=
  withRebuiltKeys
    { g with
      position := g.position.image t
      steps := g.steps.map fun s => ⟨s.before.image t, t.onRecord s.record⟩ }

/-- Image under the rotation by a multiple of a quarter turn; `none` for another angle. -/
def rotate? (g : Game) (degrees : Int) : Option Game :=
  match Symmetry.rotation? degrees with
  | some t => some (g.image t)
  | none => if degrees % 360 = 0 then some g else none

/-- Whether the game was drawn by repetition. -/
def isRepetitionDraw (g : Game) : Bool :=
  g.position.isOver && g.position.record == repetitionRecord

end Game

end Morris
