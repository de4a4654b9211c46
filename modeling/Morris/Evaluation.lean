import Morris.Moves.Legal

/-!
# Evaluation

The static value of a position, positive when White is better. Material counts men in hand and on
the board alike, five each, with owed removals on top; mobility counts the free points beside men.
Under removal by mill counts the men standing in mills count instead while men are being placed,
since nothing can be taken yet. A finished game is worth `mate` to its winner and nothing when
drawn.
-/

set_option autoImplicit false

namespace Morris.Position

/-- Value of a won game. -/
def mate : Int := 80

/-- Value of one man. -/
def manValue : Int := 5

/-- White's count less Black's. -/
def difference (v : PerSide Nat) : Int := (v.white : Int) - v.black

/-- Removals that a side owes; those among its own men count against it. -/
def owedValue (pos : Position) (c : Side) : Int :=
  let n : Int := pos.state.owed.get c
  if pos.state.takesOwn.get c then -n else n

/-- Balance of material. -/
def material (pos : Position) : Int :=
  let men := manValue * difference pos.state.inHand + manValue * difference pos.state.onBoard
  if pos.state.action = .remove then
    men + manValue * (pos.owedValue .white - pos.owedValue .black)
  else men

/-- Number of pairs of a man of a side and a point beside it without a man. -/
def reach (pos : Position) (c : Side) : Nat :=
  let taken := pos.state.men.white.union pos.state.men.black
  ((Point.all.filter (pos.men c).contains).flatMap fun p =>
    (pos.neighbours p).filter fun q => !taken.contains q).length

/-- Balance of mobility. -/
def mobility (pos : Position) : Int := (pos.reach .white : Int) - pos.reach .black

/-- Number of men of a side that stand in mills. -/
def menInMills (pos : Position) (c : Side) : Nat :=
  (pos.men c).points.countP fun p => decide (0 < pos.millsAt p)

/-- Balance of men in mills. -/
def millBalance (pos : Position) : Int := (pos.menInMills .white : Int) - pos.menInMills .black

/-- Value of a position for White. -/
def valueForWhite (withMobility : Bool) (pos : Position) : Int :=
  match pos.state.phase with
  | .ready => 0
  | .finished =>
      match pos.state.winner with
      | .white => mate
      | .black => -mate
      | _ => 0
  | phase =>
      if phase = .placing ∧ pos.rule.millAction = .countMillsLater ∧ pos.state.action ≠ .remove then
        pos.millBalance
      else if withMobility then pos.material + pos.mobility
      else pos.material

/-- Value of a position for the side to move. -/
def valueForMover (withMobility : Bool) (pos : Position) : Int :=
  match pos.state.side with
  | .white => pos.valueForWhite withMobility
  | .black => -pos.valueForWhite withMobility

end Morris.Position
