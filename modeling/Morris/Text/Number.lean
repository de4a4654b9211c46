/-!
# Numbers in texts

Unsigned and signed decimal numbers are read from texts of ASCII digits with an optional sign; any
number of leading zeros is allowed, and a number outside the bounds that the reader names is
refused. Keys are written as sixteen hexadecimal digits.
-/

set_option autoImplicit false

namespace Morris.Text

/-- Value of an ASCII decimal digit. -/
def digit? (c : Char) : Option Nat :=
  if '0' ≤ c ∧ c ≤ '9' then some (c.toNat - '0'.toNat) else none

/-- Value of a text of decimal digits, at least one. -/
def digits? (cs : List Char) : Option Nat :=
  if cs.isEmpty then none
  else cs.foldl (fun acc c => acc.bind fun n => (digit? c).map fun d => 10 * n + d) (some 0)

/-- An unsigned number below a bound, with at most one plus sign in front. -/
def natural? (bound : Nat) (cs : List Char) : Option Nat :=
  let body := match cs with
    | '+' :: rest => rest
    | _ => cs
  (digits? body).filter fun n => n < bound

/-- A signed number `n` with `-bound ≤ n < bound`, with at most one sign in front. -/
def integer? (bound : Nat) (cs : List Char) : Option Int :=
  let value : Option Int := match cs with
    | '-' :: rest => (digits? rest).map fun n => -(n : Int)
    | '+' :: rest => (digits? rest).map fun n => (n : Int)
    | _ => (digits? cs).map fun n => (n : Int)
  value.filter fun n => -(bound : Int) ≤ n ∧ n < bound

/-- Value of a lower-case hexadecimal digit. -/
def hexDigit? (c : Char) : Option Nat :=
  match digit? c with
  | some d => some d
  | none => if 'a' ≤ c ∧ c ≤ 'f' then some (c.toNat - 'a'.toNat + 10) else none

/-- The hexadecimal digit of a number below sixteen. -/
def hexDigit (n : Nat) : Char := Nat.digitChar n

/-- A 64-bit word as sixteen hexadecimal digits. -/
def hex (w : UInt64) : String :=
  String.ofList ((List.range 16).map fun i => hexDigit ((w.toNat >>> (4 * (15 - i))) % 16))

/-- The 64-bit word that sixteen hexadecimal digits write. -/
def ofHex? (s : String) : Option UInt64 :=
  if s.length = 16 then
    (s.toList.foldl (fun acc c => acc.bind fun n => (hexDigit? c).map fun d => 16 * n + d)
      (some 0)).map UInt64.ofNat
  else none

end Morris.Text
