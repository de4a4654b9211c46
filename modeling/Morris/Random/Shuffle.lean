import Morris.Random.Stream

/-!
# Shuffling

A list is shuffled by exchanging each place in turn with one at or before it. The indices come in
chunks: one random number below a product of consecutive bounds yields an index below each of the
bounds as the digits of a mixed radix, so that one word serves many places.
-/

set_option autoImplicit false

namespace Morris.Random

/-- A random number below a bound, from the high half of a product of words; a second word decides
the carry where the low half could still raise it. -/
def below (bound : Nat) (g : Generator) : Nat × Generator :=
  let (w, g) := g.next
  let product := w.toNat * bound
  let high := product / UInt32.size
  let low := product % UInt32.size
  if UInt32.size - bound < low then
    let (v, g) := g.next
    if UInt32.size ≤ low + v.toNat * bound / UInt32.size then (high + 1, g) else (high, g)
  else (high, g)

/-- Extend a product of consecutive bounds while it fits a word; gives the product and the first
bound left out. A word has room for fewer than `fuel` factors. -/
def widen : Nat → Nat → Nat → Nat × Nat
  | 0, product, bound => (product, bound)
  | fuel + 1, product, bound =>
      if product * bound < UInt32.size then widen fuel (product * bound) (bound + 1)
      else (product, bound)

/-- State of a draw of indices: the bound of the last index, the rest of the chunk, and how many
indices the chunk still holds. -/
structure Indices where
  bound : Nat
  chunk : Nat
  left : Nat
  generator : Generator

namespace Indices

/-- Before the first index, which is zero and takes no random number. -/
def start (g : Generator) : Indices := ⟨0, 0, 1, g⟩

/-- A chunk that holds at least one index below the next bound. -/
def refill (s : Indices) : Indices :=
  if s.left = 0 then
    let (product, stop) := widen 32 (s.bound + 1) (s.bound + 2)
    let (chunk, g) := below product s.generator
    { s with chunk := chunk, left := stop - (s.bound + 1), generator := g }
  else s

/-- The next index. It is the last digit of the chunk, and the whole of it when no digit follows. -/
def next (s : Indices) : Nat × Indices :=
  let s := s.refill
  let bound := s.bound + 1
  if s.left = 1 then (s.chunk, { s with bound := bound, left := 0 })
  else
    (s.chunk % bound,
      { s with bound := bound, chunk := s.chunk / bound, left := s.left - 1 })

end Indices

/-- Exchange two places of a list. -/
def swap {α : Type} (xs : List α) (i j : Nat) : List α :=
  match xs[i]?, xs[j]? with
  | some x, some y => (xs.set i y).set j x
  | _, _ => xs

/-- Exchange the places from `i` on, one for each unit of the count, with drawn indices. -/
def shuffleFrom {α : Type} : Nat → Nat → List α → Indices → List α × Indices
  | 0, _, xs, s => (xs, s)
  | n + 1, i, xs, s =>
      let (j, s) := s.next
      shuffleFrom n (i + 1) (swap xs i j) s

/-- Shuffle a list. -/
def shuffle {α : Type} (xs : List α) (g : Generator) : List α × Generator :=
  let (xs, s) := shuffleFrom xs.length 0 xs (.start g)
  (xs, s.generator)

/-- Cut a list into runs of the given sizes and shuffle each of them in a given way, which may draw
from a generator of any kind. -/
def shuffleRunsBy {α G : Type} (shuffle : List α → G → List α × G) :
    List Nat → List α → G → List α × G
  | [], xs, g => (xs, g)
  | n :: sizes, xs, g =>
      let (run, g) := shuffle (xs.take n) g
      let (rest, g) := shuffleRunsBy shuffle sizes (xs.drop n) g
      (run ++ rest, g)

end Morris.Random
