import Morris.Key.Words
import Morris.Side
import Morris.Point

/-!
# Position keys

A key summarises a position in one word: the exclusive or of a random word for every occupied point
and, with Black to move, one for the side. The four highest bits are left free for the removals that
the side to move still owes, and `withOwed` writes them.
-/

set_option autoImplicit false

namespace Morris

/-- A position key. -/
abbrev Key := UInt64

namespace Key

/-- Word of a content of a point; empty points have none. -/
def word : Content → Point → Key
  | .empty, _ => 0
  | .white, p => whiteWords[p]?.getD 0
  | .black, p => blackWords[p]?.getD 0
  | .marked, p => markWords[p]?.getD 0

/-- The exclusive or of the words of what stands on the live points. -/
def ofBoard (content : Point → Content) : Key :=
  Point.all.foldl (fun k p => k ^^^ word (content p) p) 0

/-- Write the four lowest bits of a number into the four highest bits of a key. -/
def withOwed (k : Key) (owed : Nat) : Key :=
  ((k <<< 4) >>> 4) ||| ((UInt64.ofNat owed &&& 15) <<< 60)

/-- A key with its bits spread over the word, by one step of a linear congruential generator. -/
def mix (k : Key) : Key := k * 6364136223846793005 + 1442695040888963407

end Key

end Morris
