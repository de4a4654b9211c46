/-!
# Sides, owners and what stands on a point

Two sides play, White and Black. `PerSide` holds one value for each. A `Colour` answers the question
whose something is, with two answers besides the sides: nobody's, and, for a finished game, a draw.
`Content` is what a point of the board may hold; a marked point is one that a removal has barred
until both sides have placed all their men.
-/

set_option autoImplicit false

namespace Morris

/-- The two sides. -/
inductive Side where
  | white
  | black
  deriving DecidableEq, Repr, Inhabited

/-- Whose something is. -/
inductive Colour where
  | none
  | white
  | black
  | draw
  deriving DecidableEq, Repr, Inhabited

/-- What a point of the board holds. -/
inductive Content where
  | empty
  | white
  | black
  | marked
  deriving DecidableEq, Repr, Inhabited

namespace Side

/-- The other side. -/
def other : Side → Side
  | white => black
  | black => white

/-- A side as an owner. -/
def colour : Side → Colour
  | white => .white
  | black => .black

/-- A man of this side, standing on a point. -/
def man : Side → Content
  | white => .white
  | black => .black

/-- Both sides, White first. -/
def all : List Side := [white, black]

end Side

namespace Colour

/-- Position of the owner in the order nobody, White, Black, draw. -/
def index : Colour → Nat
  | none => 0
  | white => 1
  | black => 2
  | draw => 3

/-- The other side's colour; nobody and a draw have no other side. -/
def opponent : Colour → Colour
  | white => black
  | black => white
  | c => c

/-- The side that a colour names, if it names one. -/
def side? : Colour → Option Side
  | white => some .white
  | black => some .black
  | _ => Option.none

/-- The number by which records name a player: one is White, two is Black. -/
def playerNumber (c : Colour) : Nat := c.index

/-- The colour of the player with this number. -/
def ofPlayerNumber? : Nat → Option Colour
  | 1 => some white
  | 2 => some black
  | _ => Option.none

/-- Name of a colour in a diagram. -/
def name : Colour → String
  | none => "none"
  | white => "white"
  | black => "black"
  | draw => "draw"

end Colour

namespace Content

/-- What stands where a man of this colour stands; only the sides have men. -/
def ofColour : Colour → Content
  | .white => white
  | .black => black
  | _ => empty

/-- Owner of the man on a point; empty and marked points have none. -/
def colour : Content → Colour
  | white => .white
  | black => .black
  | _ => .none

/-- Position of the content in the order empty, White, Black, marked. -/
def index : Content → Nat
  | empty => 0
  | white => 1
  | black => 2
  | marked => 3

/-- Letter of the content in a diagram. -/
def symbol : Content → Char
  | empty => '*'
  | white => 'O'
  | black => '@'
  | marked => 'X'

end Content

/-- One value for each side. -/
structure PerSide (α : Type) where
  white : α
  black : α
  deriving DecidableEq, Repr, Inhabited

namespace PerSide

variable {α : Type}

/-- The same value for both sides. -/
def both (a : α) : PerSide α := ⟨a, a⟩

/-- The value of one side. -/
def get (v : PerSide α) : Side → α
  | .white => v.white
  | .black => v.black

/-- Replace the value of one side. -/
def set (v : PerSide α) (c : Side) (a : α) : PerSide α :=
  match c with
  | .white => { v with white := a }
  | .black => { v with black := a }

/-- Change the value of one side. -/
def update (v : PerSide α) (c : Side) (f : α → α) : PerSide α := v.set c (f (v.get c))

/-- Change both values. -/
def map {β : Type} (f : α → β) (v : PerSide α) : PerSide β := ⟨f v.white, f v.black⟩

@[simp] theorem get_both (a : α) (c : Side) : (both a).get c = a := by cases c <;> rfl

@[simp] theorem get_set_self (v : PerSide α) (c : Side) (a : α) : (v.set c a).get c = a := by
  cases c <;> rfl

theorem get_set_of_ne (v : PerSide α) {c d : Side} (a : α) (h : d ≠ c) :
    (v.set c a).get d = v.get d := by
  cases c <;> cases d <;> first | rfl | exact absurd rfl h

@[simp] theorem get_map {β : Type} (f : α → β) (v : PerSide α) (c : Side) :
    (v.map f).get c = f (v.get c) := by
  cases c <;> rfl

end PerSide

end Morris
