import Morris.Rule.Basic
import Morris.Json.Layout
import Morris.Json.Reader

/-!
# Rules in JSON

The layout of a rule lists its fields under their JSON names. A document overlays Nine Men's Morris,
so that every field is optional; it is not checked for validity here.
-/

set_option autoImplicit false

namespace Morris.Rule

open Morris.Json (RecordField)

/-- A field that holds a count of 32 bits. -/
def countField (name : String) (get : Rule → Nat) (put : Rule → Nat → Rule) :
    RecordField Rule where
  name := name
  overlay j r := (j.natBelow? UInt32.size).map (put r)
  write r := .int (get r)

/-- A field that is true or false. -/
def switchField (name : String) (get : Rule → Bool) (put : Rule → Bool → Rule) :
    RecordField Rule where
  name := name
  overlay j r := j.bool?.map (put r)
  write r := .bool (get r)

/-- A field that holds one of several named choices. -/
def choiceField {α : Type} (name : String) (choices : List (String × α)) (label : α → String)
    (get : Rule → α) (put : Rule → α → Rule) : RecordField Rule where
  name := name
  overlay j r := (Json.choice? choices j).map (put r)
  write r := .ofText (label (get r))

/-- The fields of a rule in order. -/
def layout : Json.Layout Rule :=
  [{ name := "name"
     overlay := fun j r => j.text?.map fun s => { r with name := s }
     write := fun r => .ofText r.name },
   countField "piece_count" pieceCount fun r n => { r with pieceCount := n },
   countField "fly_piece_count" flyCount fun r n => { r with flyCount := n },
   countField "pieces_at_least_count" leastCount fun r n => { r with leastCount := n },
   switchField "has_diagonal_lines" hasDiagonals fun r b => { r with hasDiagonals := b },
   choiceField "mill_formation_action_in_placing_phase" MillAction.choices MillAction.name
     millAction fun r a => { r with millAction := a },
   switchField "may_move_in_placing_phase" mayMoveWhilePlacing
     fun r b => { r with mayMoveWhilePlacing := b },
   switchField "is_defender_move_first" defenderMovesFirst
     fun r b => { r with defenderMovesFirst := b },
   switchField "may_remove_multiple" mayRemoveMultiple
     fun r b => { r with mayRemoveMultiple := b },
   switchField "restrict_repeated_mills_formation" restrictRepeatedMills
     fun r b => { r with restrictRepeatedMills := b },
   switchField "may_remove_from_mills_always" mayRemoveFromMills
     fun r b => { r with mayRemoveFromMills := b },
   switchField "one_time_use_mill" oneTimeMills fun r b => { r with oneTimeMills := b },
   choiceField "board_full_action" FullBoardAction.choices FullBoardAction.name fullBoardAction
     fun r a => { r with fullBoardAction := a },
   choiceField "stalemate_action" StalemateAction.choices StalemateAction.name stalemateAction
     fun r a => { r with stalemateAction := a },
   switchField "may_fly" mayFly fun r b => { r with mayFly := b },
   countField "n_move_rule" moveLimit fun r n => { r with moveLimit := n },
   countField "endgame_n_move_rule" endgameMoveLimit fun r n => { r with endgameMoveLimit := n },
   switchField "threefold_repetition_rule" threefoldRepetition
     fun r b => { r with threefoldRepetition := b }]

/-- The rule that a JSON value overlays on Nine Men's Morris. -/
def ofJson? (j : Json) : Option Rule := layout.read? {} j

/-- The rule that a JSON text overlays on Nine Men's Morris. -/
def parse? (text : String) : Option Rule := (Json.parse? text).bind ofJson?

/-- A rule with all its fields. -/
def toJson (r : Rule) : Json := layout.toJson r

end Morris.Rule
