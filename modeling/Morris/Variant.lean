import Morris.Board
import Morris.Rule.Preset
import Morris.Random.Shuffle

/-!
# Variants

A `Variant` is what stays fixed during a game: a rule and the order in which moves are generated.
The order starts as that of the board and may be shuffled within its groups of equal value, which
changes the order of the generated moves and nothing else.
-/

set_option autoImplicit false

namespace Morris

/-- A rule together with the order of points along which moves are generated. -/
structure Variant where
  rule : Rule
  order : List Point
  deriving DecidableEq, Repr, Inhabited

namespace Variant

/-- The variant of a rule with the order of its board. -/
def ofRule (rule : Rule) : Variant := ⟨rule, Board.order rule.hasDiagonals⟩

/-- The variant of a valid rule. -/
def ofRule? (rule : Rule) : Except Error Variant :=
  match rule.fault? with
  | some fault => .error (.invalidRule fault)
  | none => .ok (ofRule rule)

/-- The variant with the groups of its order shuffled in a given way. -/
def reshuffledBy {G : Type} (shuffle : List Point → G → List Point × G) (v : Variant) (g : G) :
    Variant × G :=
  let (order, g) := Random.shuffleRunsBy shuffle Board.groupSizes v.order g
  ({ v with order := order }, g)

/-- The variant with the groups of its order shuffled. -/
def reshuffled (v : Variant) (g : Random.Generator) : Variant × Random.Generator :=
  v.reshuffledBy Random.shuffle g

end Variant

end Morris
