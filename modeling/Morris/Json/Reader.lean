import Morris.Json.Basic
import Morris.Text.Number

/-!
# Reading JSON

`Json.parse?` reads one value with nothing but blanks around it. The grammar is the standard one:
blanks are space, tab and the two line ends, numbers have no leading zero and no plus sign, strings
hold no control character, and no comma trails. Each reader returns what it read and the rest of the
text; `fuel` bounds the nesting of calls, and the length of the text is always enough of it.
-/

set_option autoImplicit false

namespace Morris.Json

open Morris.Text (digit? hexDigit? digits?)

/-- A text without its leading blanks. -/
def skipBlanks (cs : List Char) : List Char :=
  cs.dropWhile fun c => c == ' ' || c == '\t' || c == '\n' || c == '\r'

/-- A number literal: its characters, whether it is an integer literal, and the rest. -/
def numberLiteral? (cs : List Char) : Option (List Char × Bool × List Char) :=
  let (sign, body) := match cs with
    | '-' :: rest => (['-'], rest)
    | _ => ([], cs)
  let whole := body.takeWhile Char.isDigit
  let rest := body.dropWhile Char.isDigit
  if whole.isEmpty || (whole.head? == some '0' && whole.length != 1) then none
  else
    let fraction? : Option (List Char × List Char) := match rest with
      | '.' :: more =>
          let ds := more.takeWhile Char.isDigit
          if ds.isEmpty then none else some ('.' :: ds, more.dropWhile Char.isDigit)
      | _ => some ([], rest)
    fraction?.bind fun (fraction, rest) =>
      let isMark (c : Char) : Bool := c == 'e' || c == 'E'
      let exponent? : Option (List Char × List Char) := match rest with
        | e :: more =>
            if isMark e then
              let (mark, more) := match more with
                | '+' :: more => (['+'], more)
                | '-' :: more => (['-'], more)
                | _ => ([], more)
              let ds := more.takeWhile Char.isDigit
              if ds.isEmpty then none
              else some (e :: mark ++ ds, more.dropWhile Char.isDigit)
            else some ([], rest)
        | [] => some ([], rest)
      exponent?.map fun (exponent, rest) =>
        (sign ++ whole ++ fraction ++ exponent, fraction.isEmpty && exponent.isEmpty, rest)

/-- The value of a number literal: an integer when it is one that fits 64 bits. -/
def ofNumberLiteral (literal : List Char) (isInteger : Bool) : Json :=
  let other := Json.real (String.ofList literal)
  if !isInteger then other
  else
    match literal with
    | '-' :: ds =>
        match digits? ds with
        | some n => if 0 < n ∧ n ≤ 0x8000000000000000 then Json.int (-(n : Int)) else other
        | none => other
    | ds =>
        match digits? ds with
        | some n => if n < UInt64.size then Json.int n else other
        | none => other

/-- Value of four hexadecimal digits of either case. -/
def hexQuad? (a b c d : Char) : Option Nat :=
  [a, b, c, d].foldl
    (fun acc x => acc.bind fun n => (hexDigit? x.toLower).map fun v => 16 * n + v) (some 0)

/-- Character of a one-letter escape. -/
def simpleEscape? : Char → Option Char
  | '"' => some '"'
  | '\\' => some '\\'
  | '/' => some '/'
  | 'b' => some '\x08'
  | 'f' => some '\x0c'
  | 'n' => some '\n'
  | 'r' => some '\r'
  | 't' => some '\t'
  | _ => none

/-- One unit of a string: a character, or a 16-bit code given by an escape. -/
inductive Unit16 where
  | plain (c : Char)
  | code (n : Nat)

/-- Units of a string up to its closing quote, and the rest after it. -/
def units? : List Char → Option (List Unit16 × List Char)
  | [] => none
  | '"' :: rest => some ([], rest)
  | '\\' :: 'u' :: a :: b :: c :: d :: rest =>
      match hexQuad? a b c d with
      | none => none
      | some n => (units? rest).map fun (us, rest) => (.code n :: us, rest)
  | '\\' :: e :: rest =>
      match simpleEscape? e with
      | none => none
      | some c => (units? rest).map fun (us, rest) => (.plain c :: us, rest)
  | c :: rest =>
      if c.toNat < 0x20 || c == '\\' then none
      else (units? rest).map fun (us, rest) => (.plain c :: us, rest)

/-- First half of a surrogate pair. -/
def isLead (n : Nat) : Bool := decide (0xD800 ≤ n ∧ n < 0xDC00)

/-- Second half of a surrogate pair. -/
def isTrail (n : Nat) : Bool := decide (0xDC00 ≤ n ∧ n < 0xE000)

/-- The text of a list of units, unless half of a surrogate pair stands alone. -/
def textOfUnits? : List Unit16 → Option (List Char)
  | [] => some []
  | .plain c :: us => (textOfUnits? us).map (c :: ·)
  | .code n :: us =>
      if isTrail n then none
      else if isLead n then
        match us with
        | .code m :: us =>
            if isTrail m then
              (textOfUnits? us).map
                (Char.ofNat (0x10000 + (n - 0xD800) * 0x400 + (m - 0xDC00)) :: ·)
            else none
        | _ => none
      else (textOfUnits? us).map (Char.ofNat n :: ·)

/-- The string after an opening quote; its text is absent when the units spell none. -/
def stringBody? (cs : List Char) : Option (Option String × List Char) :=
  (units? cs).map fun (us, rest) => ((textOfUnits? us).map String.ofList, rest)

mutual

/-- One value, after any blanks. -/
def value? : Nat → List Char → Option (Json × List Char)
  | 0, _ => none
  | fuel + 1, cs =>
      match skipBlanks cs with
      | 'n' :: 'u' :: 'l' :: 'l' :: rest => some (.null, rest)
      | 't' :: 'r' :: 'u' :: 'e' :: rest => some (.bool true, rest)
      | 'f' :: 'a' :: 'l' :: 's' :: 'e' :: rest => some (.bool false, rest)
      | '"' :: rest => (stringBody? rest).map fun (t, rest) => (.str t, rest)
      | '[' :: rest =>
          match skipBlanks rest with
          | ']' :: rest => some (.arr [], rest)
          | rest => (items? fuel rest).map fun (xs, rest) => (.arr xs, rest)
      | '{' :: rest =>
          match skipBlanks rest with
          | '}' :: rest => some (.obj [], rest)
          | rest => (fields? fuel rest).map fun (fs, rest) => (.obj fs, rest)
      | rest =>
          (numberLiteral? rest).map fun (literal, isInteger, rest) =>
            (ofNumberLiteral literal isInteger, rest)

/-- Items of an array, at least one, through its closing bracket. -/
def items? : Nat → List Char → Option (List Json × List Char)
  | 0, _ => none
  | fuel + 1, cs =>
      (value? fuel cs).bind fun (x, rest) =>
        match skipBlanks rest with
        | ',' :: rest => (items? fuel rest).map fun (xs, rest) => (x :: xs, rest)
        | ']' :: rest => some ([x], rest)
        | _ => none

/-- Fields of an object, at least one, through its closing brace. -/
def fields? : Nat → List Char → Option (List (Option String × Json) × List Char)
  | 0, _ => none
  | fuel + 1, cs =>
      match skipBlanks cs with
      | '"' :: rest =>
          (stringBody? rest).bind fun (name, rest) =>
            match skipBlanks rest with
            | ':' :: rest =>
                (value? fuel rest).bind fun (x, rest) =>
                  match skipBlanks rest with
                  | ',' :: rest =>
                      (fields? fuel rest).map fun (fs, rest) => ((name, x) :: fs, rest)
                  | '}' :: rest => some ([(name, x)], rest)
                  | _ => none
            | _ => none
      | _ => none

end

/-- Read a text that holds one value and nothing else. -/
def parse? (text : String) : Option Json :=
  let cs := text.toList
  (value? (2 * cs.length + 2) cs).bind fun (x, rest) =>
    if (skipBlanks rest).isEmpty then some x else none

end Morris.Json
