import Morris.Error
import Morris.Text.Blank
import Morris.Text.Number

/-!
# Rule settings by name

A front end changes one setting of a rule by a pair of texts, its name and its value. Names are
compared without regard to blanks around them and to the case of ASCII letters. The changed rule has
to be valid, or the setting is refused.
-/

set_option autoImplicit false

namespace Morris

namespace Text

/-- The form in which names and switch values are compared. -/
def folded (s : String) : String := String.ofList (lower (trim s.toList))

/-- A natural number below a bound, with blanks around it allowed. -/
def naturalText? (bound : Nat) (s : String) : Option Nat := natural? bound (trim s.toList)

/-- A switch, by one of the words for on and off. -/
def switch? (on off : List String) (s : String) : Option Bool :=
  if on.contains (folded s) then some true
  else if off.contains (folded s) then some false
  else none

/-- A choice by its number in the list or, for a text that is no number, by its name. -/
def choiceText? {α : Type} (choices : List (String × α)) (s : String) : Option α :=
  match naturalText? UInt64.size s with
  | some index => choices[index]?.map (·.2)
  | none => (choices.find? fun c => folded c.1 == folded s).map (·.2)

end Text

namespace Rule

/-- One setting: the name under which it is compared, and how a value text changes a rule. -/
structure Setting where
  name : String
  change : String → Rule → Option Rule

namespace Setting

/-- A setting with a count. -/
def count (name : String) (put : Rule → Nat → Rule) : Setting :=
  ⟨name, fun value rule => (Text.naturalText? UInt32.size value).map (put rule)⟩

/-- A setting that is on or off. -/
def switch (name : String) (put : Rule → Bool → Rule) : Setting :=
  ⟨name, fun value rule =>
    (Text.switch? ["true", "1", "on"] ["false", "0", "off"] value).map (put rule)⟩

/-- A setting with named choices. -/
def choice {α : Type} (name : String) (choices : List (String × α)) (put : Rule → α → Rule) :
    Setting :=
  ⟨name, fun value rule => (Text.choiceText? choices value).map (put rule)⟩

/-- Every setting of a rule; the rule's own name is none. -/
def all : List Setting :=
  [count "piecescount" fun r n => { r with pieceCount := n },
   count "flypiececount" fun r n => { r with flyCount := n },
   count "piecesatleastcount" fun r n => { r with leastCount := n },
   switch "hasdiagonallines" fun r b => { r with hasDiagonals := b },
   choice "millformationactioninplacingphase" MillAction.choices
     fun r a => { r with millAction := a },
   switch "maymoveinplacingphase" fun r b => { r with mayMoveWhilePlacing := b },
   switch "isdefendermovefirst" fun r b => { r with defenderMovesFirst := b },
   switch "mayremovemultiple" fun r b => { r with mayRemoveMultiple := b },
   switch "restrictrepeatedmillsformation" fun r b => { r with restrictRepeatedMills := b },
   switch "mayremovefrommillsalways" fun r b => { r with mayRemoveFromMills := b },
   switch "onetimeusemill" fun r b => { r with oneTimeMills := b },
   choice "boardfullaction" FullBoardAction.choices fun r a => { r with fullBoardAction := a },
   choice "stalemateaction" StalemateAction.choices fun r a => { r with stalemateAction := a },
   switch "mayfly" fun r b => { r with mayFly := b },
   count "nmoverule" fun r n => { r with moveLimit := n },
   count "endgamenmoverule" fun r n => { r with endgameMoveLimit := n },
   switch "threefoldrepetitionrule" fun r b => { r with threefoldRepetition := b }]

/-- The setting of this name. -/
def find? (name : String) : Option Setting := all.find? fun s => s.name == Text.folded name

end Setting

/-- Change one setting by name, keeping the rule valid. -/
def setOption (rule : Rule) (name value : String) : Except Error Rule :=
  match Setting.find? name with
  | none => .error (.unknownOption name)
  | some setting =>
      match setting.change value rule with
      | none => .error (.invalidValue name value)
      | some next =>
          match next.fault? with
          | some fault => .error (.invalidRule fault)
          | none => .ok next

end Rule

end Morris
