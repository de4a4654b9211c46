import Morris.Key
import Morris.Move
import Morris.Position.Layout
import Morris.Status
import Morris.Variant

/-!
# Positions

A `State` holds everything that changes from move to move: the layout of the men, the removals that
each side owes itself, whose turn it is and what is expected next, the key, and the counters and
memories that the rules ask for. A `Position` is a state together with the variant it is played in.

What stands on a point is read off the board by `contentAt`. The key is kept up to date by every
change, so `keyFromScratch`, which computes it anew, agrees with the stored one on every position
that play reaches.
-/

set_option autoImplicit false

namespace Morris

/-- Everything of a position that changes from move to move. -/
structure State extends Layout where
  /-- Removals that each side has earned and not yet made. -/
  owed : PerSide Nat := .both 0
  /-- Whether a side makes its removals among its own men. -/
  takesOwn : PerSide Bool := .both false
  side : Side := .white
  phase : Phase := .ready
  action : Action := .place
  winner : Colour := .none
  ending : Ending := .none
  key : Key := 0
  /-- Slides since the last placement or removal. -/
  quiet : Nat := 0
  /-- Moves since the last reset. -/
  ply : Nat := 0
  /-- The man picked up for a slide. -/
  selected : Option Point := none
  /-- Start and end of each side's last slide, if it closed a mill while opening another. -/
  lastMill : PerSide (Option (Point × Point)) := .both none
  /-- Points of the lines that each side has scored with, where a line scores once. -/
  usedLines : PerSide Bitboard := .both .empty
  /-- Whether the owed removal frees a blocked side, which then moves on. -/
  freesMover : Bool := false
  /-- The move that led to this state. -/
  lastMove : Move := .none
  deriving DecidableEq, Repr, Inhabited

/-- A state in the variant it is played in. -/
structure Position where
  variant : Variant
  state : State
  deriving DecidableEq, Repr, Inhabited

/-- The state of an empty board with full hands. -/
def State.initial (pieceCount : Nat) : State := { inHand := .both pieceCount }

namespace Position

/-! ## Parts of a position -/

/-- The rule in force. -/
def rule (pos : Position) : Rule := pos.variant.rule

/-- Change the state. -/
def mapState (pos : Position) (f : State → State) : Position :=
  { pos with state := f pos.state }

/-- The points with a man of one side. -/
def men (pos : Position) (c : Side) : Bitboard := pos.state.men.get c

/-- The points that hold a man or a mark. -/
def occupied (pos : Position) : Bitboard := pos.state.occupied

/-- What stands on a point. -/
def contentAt (pos : Position) (p : Point) : Content := pos.state.content p

/-- Owner of the man on a point. -/
def colourAt (pos : Position) (p : Point) : Colour := (pos.contentAt p).colour

/-- The two neighbours and up to two more of a point. -/
def neighbours (pos : Position) (p : Point) : List Point :=
  Board.neighbours pos.rule.hasDiagonals p

/-- Whether the game has ended. -/
def isOver (pos : Position) : Bool := pos.state.phase == .finished

/-! ## The key -/

/-- The number kept in the high bits of the key: the removals that the side to move owes, up to
seven, and eight more when it takes its own men. -/
def owedBits (pos : Position) : Nat :=
  min (pos.state.owed.get pos.state.side) 7 + if pos.state.takesOwn.get pos.state.side then 8 else 0

/-- Write the owed removals into the key. -/
def refreshKey (pos : Position) : Position :=
  pos.mapState fun s => { s with key := s.key.withOwed pos.owedBits }

/-- The part of the key that the board and the side to move make up. -/
def sidedKey (pos : Position) : Key :=
  let board := Key.ofBoard pos.contentAt
  if pos.state.side = .black then board ^^^ Key.sideWord else board

/-- The key computed from the board, the side to move and the removals it owes. -/
def keyFromScratch (pos : Position) : Key := pos.sidedKey.withOwed pos.owedBits

/-! ## Beginning -/

/-- An empty board and full hands, in the same variant. -/
def reset (pos : Position) : Position :=
  { pos with state := .initial pos.rule.pieceCount }

/-- The position before the first move of a variant. -/
def ofVariant (v : Variant) : Position := ⟨v, .initial v.rule.pieceCount⟩

/-- The position before the first move under a rule, which has to be valid. -/
def ofRule (rule : Rule) : Except Error Position := (Variant.ofRule? rule).map ofVariant

/-- Whether `start` begins a game. -/
def canStart (pos : Position) : Bool := pos.state.phase == .ready || pos.state.phase == .finished

/-- Begin placing; a finished game starts over, and a game in progress goes on. -/
def start (pos : Position) : Position :=
  match pos.state.phase with
  | .ready => pos.mapState fun s => { s with phase := .placing }
  | .finished => pos.reset.mapState fun s => { s with phase := .placing }
  | _ => pos

end Position

end Morris
