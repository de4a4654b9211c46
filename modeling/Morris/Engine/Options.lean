import Morris.Json.Layout
import Morris.Json.Reader
import Morris.Search.Algorithm

/-!
# Engine options

The options of an engine, set one by one by name or read from JSON. A value set by name has to lie
within the bounds of its option; a JSON document is taken as it stands and overlays the defaults.
-/

set_option autoImplicit false

namespace Morris

/-- The options of an engine. -/
structure EngineOptions where
  algorithm : Algorithm := .mtdf
  maxDepth : Int := 8
  /-- Seconds a move, zero for a search to the greatest depth however long it takes. -/
  moveTime : Nat := 0
  /-- Iterative deepening; a limit of time always turns it on. -/
  deepening : Bool := true
  threads : Nat := 1
  tableShards : Nat := Table.defaultShards
  tableBuckets : Nat := Table.defaultBuckets
  /-- Shuffle the order of points of equal value before each search. -/
  shuffle : Bool := false
  seed : Nat := 0
  quietDepth : Int := 16
  withMobility : Bool := true
  deriving DecidableEq, Repr, Inhabited

namespace EngineOptions

/-! ## Options by name -/

/-- One option: the names under which it is compared, and how a value text changes the options. -/
structure Setting where
  names : List String
  change : String → EngineOptions → Option EngineOptions

namespace Setting

/-- An option with an unsigned 64-bit value. -/
def natural (names : List String) (put : EngineOptions → Nat → EngineOptions) : Setting :=
  ⟨names, fun value o => (Text.naturalText? UInt64.size value).map (put o)⟩

/-- An option with a signed 32-bit value. -/
def integer (names : List String) (put : EngineOptions → Int → Option EngineOptions) : Setting :=
  ⟨names, fun value o => (Text.integer? 0x80000000 (Text.trim value.toList)).bind (put o)⟩

/-- An option that is on or off. -/
def switch (names : List String) (put : EngineOptions → Bool → EngineOptions) : Setting :=
  ⟨names, fun value o =>
    (Text.switch? ["true", "1", "on", "yes"] ["false", "0", "off", "no"] value).map (put o)⟩

/-- Every option but the algorithm. -/
def all : List Setting :=
  [integer ["depth", "maxdepth", "skilllevel"] fun o n =>
     if 1 ≤ n ∧ n ≤ Search.depthLimit then some { o with maxDepth := n } else none,
   natural ["movetime"] fun o n => { o with moveTime := n },
   switch ["ids", "idsenabled"] fun o b => { o with deepening := b },
   natural ["threads"] fun o n => { o with threads := max 1 n },
   natural ["ttshards"] fun o n => { o with tableShards := max 1 n },
   natural ["ttbuckets"] fun o n => { o with tableBuckets := max 1 n },
   switch ["shuffle", "shufflingenabled"] fun o b => { o with shuffle := b },
   natural ["seed"] fun o n => { o with seed := n },
   integer ["quiescencedepth"] fun o n => some { o with quietDepth := max 0 n },
   switch ["considermobility"] fun o b => { o with withMobility := b }]

/-- The option of this name. -/
def find? (name : String) : Option Setting :=
  all.find? fun s => s.names.contains (Text.folded name)

end Setting

/-- Set one option by name. -/
def setOption (o : EngineOptions) (name value : String) : Except Error EngineOptions :=
  if Text.folded name = "algorithm" then
    (Algorithm.parse value).map fun a => { o with algorithm := a }
  else
    match Setting.find? name with
    | none => .error (.unknownOption name)
    | some setting =>
        match setting.change value o with
        | none => .error (.invalidValue name value)
        | some next => .ok next

/-! ## Options in JSON -/

open Morris.Json (RecordField)

/-- A field with an unsigned 64-bit value. -/
def naturalField (name : String) (get : EngineOptions → Nat)
    (put : EngineOptions → Nat → EngineOptions) : RecordField EngineOptions where
  name := name
  overlay j o := (j.natBelow? UInt64.size).map (put o)
  write o := .int (get o)

/-- A field with a signed 32-bit value. -/
def integerField (name : String) (get : EngineOptions → Int)
    (put : EngineOptions → Int → EngineOptions) : RecordField EngineOptions where
  name := name
  overlay j o := (j.intIn? (-0x80000000) 0x80000000).map (put o)
  write o := .int (get o)

/-- A field that is true or false. -/
def switchField (name : String) (get : EngineOptions → Bool)
    (put : EngineOptions → Bool → EngineOptions) : RecordField EngineOptions where
  name := name
  overlay j o := j.bool?.map (put o)
  write o := .bool (get o)

/-- The fields of the options in order. -/
def layout : Json.Layout EngineOptions :=
  [{ name := "algorithm"
     overlay := fun j o =>
       (Json.choice? Algorithm.choices j).map fun a => { o with algorithm := a }
     write := fun o => .ofText o.algorithm.text },
   integerField "max_depth" maxDepth fun o n => { o with maxDepth := n },
   naturalField "move_time" moveTime fun o n => { o with moveTime := n },
   switchField "ids" deepening fun o b => { o with deepening := b },
   naturalField "threads" threads fun o n => { o with threads := n },
   naturalField "tt_shards" tableShards fun o n => { o with tableShards := n },
   naturalField "tt_buckets" tableBuckets fun o n => { o with tableBuckets := n },
   switchField "shuffle" shuffle fun o b => { o with shuffle := b },
   naturalField "seed" seed fun o n => { o with seed := n },
   integerField "quiescence_depth" quietDepth fun o n => { o with quietDepth := n },
   switchField "consider_mobility" withMobility fun o b => { o with withMobility := b }]

/-- The options that a JSON value overlays on the defaults. -/
def ofJson? (j : Json) : Option EngineOptions := layout.read? {} j

/-- The options that a JSON text overlays on the defaults. -/
def parse? (text : String) : Option EngineOptions := (Json.parse? text).bind ofJson?

/-- All options. -/
def toJson (o : EngineOptions) : Json := layout.toJson o

end EngineOptions

end Morris
