/-!
# JSON values

A value keeps what a reader of settings has to tell apart. An integer literal that fits 64 bits is
`int`; every other number, one with a fraction or an exponent and the negative zero included, is
`real` and keeps only its literal. A string is `str none` when its escapes name half of a surrogate
pair and so spell no text. An object keeps its fields in order, repeated names included.
-/

set_option autoImplicit false

namespace Morris

/-- A JSON value as it was written. -/
inductive Json where
  | null
  | bool (b : Bool)
  | int (n : Int)
  | real (literal : String)
  | str (text : Option String)
  | arr (items : List Json)
  | obj (fields : List (Option String × Json))
  deriving Repr, Inhabited

namespace Json

/-- The text of a string value. -/
def text? : Json → Option String
  | str t => t
  | _ => none

/-- A truth value. -/
def bool? : Json → Option Bool
  | bool b => some b
  | _ => none

/-- An integer from `low` up to and without `high`. -/
def intIn? (low high : Int) : Json → Option Int
  | int n => if low ≤ n ∧ n < high then some n else none
  | _ => none

/-- A natural number below a bound. -/
def natBelow? (bound : Nat) (j : Json) : Option Nat :=
  (j.intIn? 0 bound).map Int.toNat

/-- A string value. -/
def ofText (s : String) : Json := str (some s)

/-- An object value. -/
def ofFields (fields : List (String × Json)) : Json :=
  obj (fields.map fun (name, value) => (some name, value))

/-- The last field of this name. -/
def field? (j : Json) (name : String) : Option Json :=
  match j with
  | obj fields => (fields.reverse.find? fun f => f.1 == some name).map (·.2)
  | _ => none

/-- The value in which every repeated name keeps only its last field, as a dictionary would. -/
def lastOfEachName : Json → Json
  | obj fields =>
      obj (fields.reverse.foldl
        (fun kept f => if kept.any (fun g => g.1 == f.1) then kept else f :: kept) [])
  | j => j

end Json

end Morris
