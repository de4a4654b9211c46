import Std.Data.HashMap
import Morris.Key
import Morris.Move

/-!
# The table of search results

Searches share a table of results by position key. It is cut into shards and each shard into buckets
of two slots; the bits of the key choose shard and bucket. An entry carries the generation of the
search that wrote it, and an entry of another generation settles nothing: it only suggests a move
and is the first to be replaced. A live entry gives way to a result of at least its depth, except
that exact results give way to exact ones only and replace the others at any depth.

Only buckets that have been written are stored, so a table of any size is small while it is empty.
-/

set_option autoImplicit false

namespace Morris

/-- How a stored value bounds the true one. -/
inductive Bound where
  | upper
  | lower
  | exact
  deriving DecidableEq, Repr, Inhabited

namespace Table

/-- A stored result. -/
structure Entry where
  key : Key
  value : Int
  depth : Int
  bound : Bound
  move : Move
  generation : UInt8
  deriving DecidableEq, Repr, Inhabited

/-- Whether an entry of the current generation gives way to a result. -/
def Entry.givesWayTo (e : Entry) (depth : Int) (bound : Bound) : Bool :=
  match e.bound == .exact, bound == .exact with
  | false, true => true
  | true, false => false
  | _, _ => decide (e.depth ≤ depth)

/-- Two slots for entries. -/
structure Bucket where
  first : Option Entry := none
  second : Option Entry := none
  deriving DecidableEq, Repr, Inhabited

/-- The two slots of a bucket. -/
inductive Slot where
  | first
  | second
  deriving DecidableEq, Repr, Inhabited

namespace Bucket

/-- Content of a slot. -/
def get (b : Bucket) : Slot → Option Entry
  | .first => b.first
  | .second => b.second

/-- Fill a slot. -/
def set (b : Bucket) (slot : Slot) (e : Entry) : Bucket :=
  match slot with
  | .first => { b with first := some e }
  | .second => { b with second := some e }

/-- The slot that holds the entry of a key. -/
def slotOf? (b : Bucket) (key : Key) : Option Slot :=
  if b.first.any fun e => e.key == key then some .first
  else if b.second.any fun e => e.key == key then some .second
  else none

/-- The entry of a key. -/
def find? (b : Bucket) (key : Key) : Option Entry := (b.slotOf? key).bind b.get

/-- The least depth that a 32-bit depth can have; it ranks empty slots and old entries. -/
def leastDepth : Int := -0x80000000

/-- How much a slot is worth keeping: nothing when it is empty or old, else its depth, and one more
for an exact result. -/
def worth (generation : UInt8) : Option Entry → Int
  | none => leastDepth
  | some e =>
      if e.generation ≠ generation then leastDepth
      else e.depth + if e.bound = .exact then 1 else 0

/-- The slot that a result of a key goes to: its own, or else the one less worth keeping. -/
def slotFor (b : Bucket) (generation : UInt8) (key : Key) : Slot :=
  match b.slotOf? key with
  | some slot => slot
  | none =>
      if worth generation b.first ≤ worth generation b.second then .first else .second

/-- Offer a result to a bucket. A live entry that does not give way still takes over the move of a
result for its own key if it has none. -/
def offer (b : Bucket) (new : Entry) : Bucket :=
  let slot := b.slotFor new.generation new.key
  match b.get slot with
  | none => b.set slot new
  | some old =>
      if old.generation ≠ new.generation || old.givesWayTo new.depth new.bound then b.set slot new
      else if old.key = new.key ∧ new.move.isProper ∧ ¬old.move.isProper then
        b.set slot { old with move := new.move }
      else b

end Bucket

/-- What the table knows about a position: a value that settles it, the window that is left, and a
move to try first. -/
structure Probe where
  cutoff : Option Int
  alpha : Int
  beta : Int
  move : Move
  deriving DecidableEq, Repr, Inhabited

end Table

/-- A table of search results. -/
structure Table where
  shards : Nat
  buckets : Nat
  generation : UInt8
  stored : Std.HashMap (Nat × Nat) Table.Bucket

namespace Table

/-- An empty table with at least one shard and one bucket a shard. -/
def new (shards buckets : Nat) : Table := ⟨max 1 shards, max 1 buckets, 0, {}⟩

/-- Number of shards of a table whose size nobody chose. -/
def defaultShards : Nat := 64

/-- Number of buckets a shard of a table whose size nobody chose. -/
def defaultBuckets : Nat := 16384

/-- Shard and bucket of a key. -/
def address (t : Table) (key : Key) : Nat × Nat :=
  let mixed := key.mix
  ((mixed >>> 40).toNat % t.shards, mixed.toNat % t.buckets)

/-- The bucket of a key. -/
def bucketOf (t : Table) (key : Key) : Bucket := (t.stored[t.address key]?).getD {}

/-- Begin a new search: what is stored now settles nothing any more. -/
def nextGeneration (t : Table) : Table := { t with generation := t.generation + 1 }

/-- Forget every entry. -/
def clear (t : Table) : Table := { t with stored := {} }

/-- Narrow a window by an entry, or settle the position by it. -/
def Entry.narrow (e : Entry) (alpha beta : Int) : Probe :=
  match e.bound with
  | .exact => ⟨some e.value, alpha, beta, e.move⟩
  | .lower =>
      let alpha := max alpha e.value
      ⟨if beta ≤ alpha then some e.value else none, alpha, beta, e.move⟩
  | .upper =>
      let beta := min beta e.value
      ⟨if beta ≤ alpha then some e.value else none, alpha, beta, e.move⟩

/-- Look up a key for a search of some depth within a window. -/
def probe (t : Table) (key : Key) (depth alpha beta : Int) : Probe :=
  match (t.bucketOf key).find? key with
  | none => ⟨none, alpha, beta, .none⟩
  | some e =>
      if e.generation ≠ t.generation ∨ e.depth < depth then ⟨none, alpha, beta, e.move⟩
      else e.narrow alpha beta

/-- Record a result; one without a bound is not worth recording. -/
def save (t : Table) (key : Key) (depth : Int) (bound : Option Bound) (value : Int) (move : Move) :
    Table :=
  match bound with
  | none => t
  | some bound =>
      let address := t.address key
      let new : Entry := ⟨key, value, depth, bound, move, t.generation⟩
      let bucket := (t.stored[address]?).getD {}
      { t with stored := t.stored.insert address (bucket.offer new) }

end Table

end Morris
