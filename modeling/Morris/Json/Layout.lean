import Morris.Json.Basic

/-!
# Records in JSON

A `Layout` lists the fields of a record type in order, each with a reader that overlays one value
and a writer. A record is read over a base record: an object replaces the fields that it names, may
hold fields of other names, and may not name one of the listed fields twice; an array gives the
values of the leading fields in order. A choice among names is written as its name, and read from
its name or from an object whose only field has that name and is null.
-/

set_option autoImplicit false

namespace Morris.Json

/-- One field of a record type: its name, how a value replaces it, and how it is written. -/
structure RecordField (α : Type) where
  name : String
  overlay : Json → α → Option α
  write : α → Json

/-- The fields of a record type in order. -/
abbrev Layout (α : Type) := List (RecordField α)

namespace Layout

variable {α : Type}

/-- Overlay the fields of an object one after another; `seen` holds the listed names met before. -/
def overlayFields (layout : Layout α) :
    List (Option String × Json) → List String → α → Option α
  | [], _, a => some a
  | (none, _) :: _, _, _ => none
  | (some name, value) :: rest, seen, a =>
      match layout.find? fun f => f.name == name with
      | none => overlayFields layout rest seen a
      | some f =>
          if seen.contains name then none
          else (f.overlay value a).bind (overlayFields layout rest (name :: seen))

/-- Overlay the leading fields by the items of an array. -/
def overlayItems : Layout α → List Json → α → Option α
  | _, [], a => some a
  | [], _ :: _, _ => none
  | f :: layout, x :: xs, a => (f.overlay x a).bind (overlayItems layout xs)

/-- Read a record over a base record. -/
def read? (layout : Layout α) (base : α) : Json → Option α
  | .obj fields => overlayFields layout fields [] base
  | .arr items => overlayItems layout items base
  | _ => none

/-- Write every field of a record. -/
def toJson (layout : Layout α) (a : α) : Json :=
  .ofFields (layout.map fun f => (f.name, f.write a))

end Layout

/-- A choice among named values. -/
def choice? {α : Type} (choices : List (String × α)) (j : Json) : Option α :=
  let named (name : String) : Option α := (choices.find? fun c => c.1 == name).map (·.2)
  match j with
  | .str (some name) => named name
  | .obj [(some name, .null)] => named name
  | _ => none

end Morris.Json
