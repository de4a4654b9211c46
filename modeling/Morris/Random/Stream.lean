/-!
# A stream of random words

The stream is the ChaCha key stream with twelve rounds, stream number zero and a 64-bit block
counter that starts at zero. A generator is the 256-bit key together with the number of words
already drawn, so the word at any place of the stream is a function of the key and the place. A
64-bit seed is stretched to a key by a linear congruential generator with a rotated output.
-/

set_option autoImplicit false

namespace Morris.Random

/-- Four words of the state of the block function. -/
structure Row where
  a : UInt32
  b : UInt32
  c : UInt32
  d : UInt32
  deriving DecidableEq, Repr, Inhabited

namespace Row

/-- Word by word sum. -/
def add (x y : Row) : Row := ⟨x.a + y.a, x.b + y.b, x.c + y.c, x.d + y.d⟩

/-- Word by word exclusive or. -/
def xor (x y : Row) : Row := ⟨x.a ^^^ y.a, x.b ^^^ y.b, x.c ^^^ y.c, x.d ^^^ y.d⟩

/-- Rotate a word to the left by fewer than 32 bits. -/
def rotateWord (w n : UInt32) : UInt32 := (w <<< n) ||| (w >>> (32 - n))

/-- Rotate every word to the left. -/
def rotate (x : Row) (n : UInt32) : Row :=
  ⟨rotateWord x.a n, rotateWord x.b n, rotateWord x.c n, rotateWord x.d n⟩

/-- Move every word one place forward. -/
def turn (x : Row) : Row := ⟨x.b, x.c, x.d, x.a⟩

/-- The words in order. -/
def toList (x : Row) : List UInt32 := [x.a, x.b, x.c, x.d]

end Row

/-- The state of the block function, row by row. -/
structure Block where
  top : Row
  upper : Row
  lower : Row
  bottom : Row
  deriving DecidableEq, Repr, Inhabited

namespace Block

/-- The quarter round on all four columns at once. -/
def mixColumns (s : Block) : Block :=
  let a := s.top.add s.upper
  let d := (s.bottom.xor a).rotate 16
  let c := s.lower.add d
  let b := (s.upper.xor c).rotate 12
  let a := a.add b
  let d := (d.xor a).rotate 8
  let c := c.add d
  let b := (b.xor c).rotate 7
  ⟨a, b, c, d⟩

/-- A round on the columns followed by one on the diagonals. -/
def doubleRound (s : Block) : Block :=
  let s := s.mixColumns
  let s := mixColumns ⟨s.top, s.upper.turn, s.lower.turn.turn, s.bottom.turn.turn.turn⟩
  ⟨s.top, s.upper.turn.turn.turn, s.lower.turn.turn, s.bottom.turn⟩

/-- `n` double rounds. -/
def rounds : Nat → Block → Block
  | 0, s => s
  | n + 1, s => rounds n s.doubleRound

/-- The sixteen output words: twelve rounds added to the state itself. -/
def output (s : Block) : List UInt32 :=
  let r := rounds 6 s
  (r.top.add s.top).toList ++ (r.upper.add s.upper).toList ++ (r.lower.add s.lower).toList
    ++ (r.bottom.add s.bottom).toList

end Block

/-- A generator: its key and how many words it has given out. -/
structure Generator where
  keyLow : Row
  keyHigh : Row
  drawn : Nat
  deriving DecidableEq, Repr, Inhabited

namespace Generator

/-- The block with a number. -/
def block (g : Generator) (n : Nat) : Block where
  top := ⟨0x61707865, 0x3320646e, 0x79622d32, 0x6b206574⟩
  upper := g.keyLow
  lower := g.keyHigh
  bottom := ⟨UInt32.ofNat n, UInt32.ofNat (n / UInt32.size), 0, 0⟩

/-- The word at a place of the stream. -/
def word (g : Generator) (i : Nat) : UInt32 := ((g.block (i / 16)).output[i % 16]?).getD 0

/-- Draw one word. -/
def next (g : Generator) : UInt32 × Generator := (g.word g.drawn, { g with drawn := g.drawn + 1 })

/-- Step of the seed stretcher. -/
def stretchStep (s : UInt64) : UInt64 := s * 6364136223846793005 + 11634580027462260723

/-- Word that the seed stretcher gives out in a state: high bits folded on themselves and rotated
to the right by the topmost ones. -/
def stretchWord (s : UInt64) : UInt32 :=
  let x := (((s >>> 18) ^^^ s) >>> 27).toUInt32
  let n := (s >>> 59).toUInt32
  (x >>> n) ||| (x <<< ((32 - n) % 32))

/-- The words of the stretched seed. -/
def stretch : Nat → UInt64 → List UInt32
  | 0, _ => []
  | n + 1, s =>
      let s := stretchStep s
      stretchWord s :: stretch n s

/-- The generator of a seed. -/
def ofSeed (seed : UInt64) : Generator :=
  match stretch 8 seed with
  | [a, b, c, d, e, f, g, h] => ⟨⟨a, b, c, d⟩, ⟨e, f, g, h⟩, 0⟩
  | _ => ⟨default, default, 0⟩

end Generator

end Morris.Random
