import Morris.Error

/-!
# The built-in rules

The twelve named members of the family, each written as Nine Men's Morris with the settings in which
it differs. Records number them from one in this order, `Rule.preset` from zero.
-/

set_option autoImplicit false

namespace Morris.Rule

/-- The built-in rules in record order. -/
def presets : List Rule :=
  [{},
   { name := "Twelve Men's Morris", pieceCount := 12, hasDiagonals := true },
   { name := "Dooz", pieceCount := 12, hasDiagonals := true, millAction := .takeFromHandAndPass },
   { name := "Morabaraba", pieceCount := 12, hasDiagonals := true, restrictRepeatedMills := true },
   { name := "Russian Mill", oneTimeMills := true },
   { name := "Lasker Morris", pieceCount := 10, mayMoveWhilePlacing := true },
   { name := "Cheng San Qi", mayFly := false },
   { name := "Da San Qi", pieceCount := 12, hasDiagonals := true, millAction := .markPoint,
     defenderMovesFirst := true, mayRemoveFromMills := true, mayFly := false },
   { name := "Zhi Qi", pieceCount := 12, hasDiagonals := true,
     fullBoardAction := .firstThenSecondRemove, stalemateAction := .removeAndMove },
   { name := "El Filja", pieceCount := 12, millAction := .countMillsLater,
     mayRemoveFromMills := true, fullBoardAction := .firstThenSecondRemove, mayFly := false },
   { name := "Experimental", pieceCount := 12, hasDiagonals := true, defenderMovesFirst := true,
     mayRemoveFromMills := true, fullBoardAction := .secondThenFirstRemove, mayFly := false },
   { name := "Six Men's Morris", pieceCount := 6 }]

/-- The built-in rule with this number, counted from zero. -/
def preset (index : Nat) : Except Error Rule :=
  match presets[index]? with
  | some rule => .ok rule
  | none => .error (.noSuchPreset index presets.length)

/-- Every built-in rule is valid. -/
theorem valid_of_mem_presets : ∀ r ∈ presets, r.Valid := by decide

end Morris.Rule
