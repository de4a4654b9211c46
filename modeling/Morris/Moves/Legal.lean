import Morris.Position.Play

/-!
# Legal moves

The legal moves of a position are listed along the order of its variant. Placements follow it
forwards; slides and removals follow it backwards, the slides of one man in the order of its
neighbours, or, when its side may fly, along the order again.
-/

set_option autoImplicit false

namespace Morris.Position

/-- A placement on every empty point, while the side to move has men in hand. -/
def placements (pos : Position) : List Move :=
  if pos.state.inHand.get pos.state.side = 0 then []
  else (pos.variant.order.filter fun p => pos.contentAt p == .empty).map Move.place

/-- Whether the rule against repeated mills forbids a slide to a neighbour: the man that has just
closed a mill may close no other while that mill stands, nor go back into the one it left. -/
def isBarredSlide (pos : Position) (a b : Point) : Bool :=
  let us := pos.state.side
  pos.rule.restrictRepeatedMills
    && (((pos.state.lastMill.get us).any (fun l => l.2 == a)
        && decide (0 < pos.potentialMills b (some us) a) && decide (0 < pos.millsAt a))
      || pos.returnsToMill a b)

/-- Points to which a man of the side to move may go. -/
def slideTargets (pos : Position) (a : Point) : List Point :=
  if pos.canFly pos.state.side then
    pos.variant.order.filter fun b => pos.contentAt b == .empty && !pos.returnsToMill a b
  else (pos.neighbours a).filter fun b => pos.contentAt b == .empty && !pos.isBarredSlide a b

/-- Slides and flights of the side to move. While men are being placed there are none unless the
rule allows them. -/
def slides (pos : Position) : List Move :=
  if (pos.state.phase == .ready || pos.state.phase == .placing)
      && !pos.rule.mayMoveWhilePlacing then []
  else
    (pos.variant.order.reverse.filter fun a => pos.contentAt a == pos.state.side.man).flatMap
      fun a => (pos.slideTargets a).map fun b => Move.slide a b

/-- Men that the side to move may remove. -/
def removals (pos : Position) : List Move :=
  let us := pos.state.side
  let own := pos.state.takesOwn.get us
  let target := pos.removalTarget
  let men := pos.variant.order.reverse.filter fun p => pos.contentAt p == target.man
  let allowed :=
    if pos.isFreeingRemoval then men.filter fun p => own || pos.touches p us.colour
    else if pos.rule.mayRemoveFromMills || pos.allInMills target then men
    else men.filter fun p => pos.millsAt p == 0
  allowed.map Move.remove

/-- Every move that the side to move may make. -/
def legalMoves (pos : Position) : List Move :=
  match pos.state.action, pos.state.phase with
  | .remove, _ => pos.removals
  | _, .ready | _, .placing => pos.placements ++ pos.slides
  | _, .moving => pos.slides
  | _, .finished => []

end Morris.Position
