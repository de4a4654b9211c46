import Morris.Json.Basic
import Morris.Text.Number

/-!
# Writing JSON

Values are written without blanks. In strings the quote, the backslash and the control characters
are escaped and every other character stands for itself.
-/

set_option autoImplicit false

namespace Morris.Json

/-- A character inside a string. -/
def escape (c : Char) : List Char :=
  if c == '"' then ['\\', '"']
  else if c == '\\' then ['\\', '\\']
  else if c.toNat < 0x20 then
    ['\\', 'u', '0', '0', Text.hexDigit (c.toNat / 16), Text.hexDigit (c.toNat % 16)]
  else [c]

/-- A string literal. -/
def quote (s : String) : String := String.ofList ('"' :: s.toList.flatMap escape ++ ['"'])

mutual

/-- The text of a value. -/
def render : Json → String
  | null => "null"
  | bool true => "true"
  | bool false => "false"
  | int n => toString n
  | real literal => literal
  | str t => quote (t.getD "")
  | arr items => "[" ++ renderItems items ++ "]"
  | obj fields => "\x7b" ++ renderFields fields ++ "\x7d"

/-- The texts of the items of an array with commas between them. -/
def renderItems : List Json → String
  | [] => ""
  | [x] => render x
  | x :: xs => render x ++ "," ++ renderItems xs

/-- The texts of the fields of an object with commas between them. -/
def renderFields : List (Option String × Json) → String
  | [] => ""
  | [(name, x)] => quote (name.getD "") ++ ":" ++ render x
  | (name, x) :: fs => quote (name.getD "") ++ ":" ++ render x ++ "," ++ renderFields fs

end

end Morris.Json
