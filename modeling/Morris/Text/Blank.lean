/-!
# Blanks and cuts

Texts are lists of characters here. A blank is a character with the Unicode property White_Space;
`trim` takes blanks off both ends and `words` cuts a text at its blanks. The other functions take a
text apart at a fixed mark: `after?` and `before?` at an end, `cutAt?` at the first occurrence.
-/

set_option autoImplicit false

namespace Morris.Text

/-- Characters with the Unicode property White_Space. -/
def isBlank (c : Char) : Bool :=
  let n := c.toNat
  decide ((9 ≤ n ∧ n ≤ 13) ∨ n = 0x20 ∨ n = 0x85 ∨ n = 0xA0 ∨ n = 0x1680
    ∨ (0x2000 ≤ n ∧ n ≤ 0x200A) ∨ n = 0x2028 ∨ n = 0x2029 ∨ n = 0x202F ∨ n = 0x205F ∨ n = 0x3000)

/-- A text without the blanks at its end. -/
def trimEnd (cs : List Char) : List Char := (cs.reverse.dropWhile isBlank).reverse

/-- A text without the blanks at both ends. -/
def trim (cs : List Char) : List Char := trimEnd (cs.dropWhile isBlank)

/-- The pieces between the characters of a class; there is one more piece than such characters. -/
def pieces (isCut : Char → Bool) : List Char → List (List Char)
  | [] => [[]]
  | c :: cs =>
      let rest := pieces isCut cs
      if isCut c then [] :: rest
      else
        match rest with
        | [] => [[c]]
        | w :: ws => (c :: w) :: ws

/-- The longest blank-free runs of a text. -/
def words (cs : List Char) : List (List Char) :=
  (pieces isBlank cs).filter fun w => !w.isEmpty

/-- What follows a mark that the text starts with. -/
def after? (mark cs : List Char) : Option (List Char) :=
  if mark.isPrefixOf cs then some (cs.drop mark.length) else none

/-- What precedes a mark that the text ends with. -/
def before? (mark cs : List Char) : Option (List Char) :=
  if mark.isSuffixOf cs then some (cs.take (cs.length - mark.length)) else none

/-- What precedes and what follows the first occurrence of a mark. -/
def cutAt? (mark : List Char) : List Char → Option (List Char × List Char)
  | [] => if mark.isEmpty then some ([], []) else none
  | c :: cs =>
      match after? mark (c :: cs) with
      | some rest => some ([], rest)
      | none => (cutAt? mark cs).map fun (left, right) => (c :: left, right)

/-- A text with its ASCII letters in lower case. -/
def lower (cs : List Char) : List Char := cs.map Char.toLower

/-- Trim a string. -/
def trimString (s : String) : String := String.ofList (trim s.toList)

end Morris.Text
