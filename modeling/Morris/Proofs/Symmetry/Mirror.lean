import Morris.Proofs.Symmetry.Board

/-!
# Positions seen through a symmetry

A position is `Mirrored` in another when a symmetry of the board turns the one into the other: the
points that the state names, those of the men and marks, of the picked-up man, of the last mills and
of the lines scored with, are carried to their images, and everything else is the same. The keys are
left out, because a change of position brings them up to date only at its end.

Whatever the rules ask of a position has then the same answer in both, if the points that are asked
about go along: the mills of a side and those through a point, what may fly, touch or slide back,
which side is blocked, and what a removal is for.
-/

set_option autoImplicit false

namespace Morris

/-! ## The two parts of a state -/

namespace State

/-- The part of a state that names no point. -/
def plain (s : State) : State :=
  { s with
    toLayout := { onBoard := s.onBoard, inHand := s.inHand }
    key := 0
    selected := none
    lastMill := .both none
    usedLines := .both .empty
    lastMove := .none }

/-- The part of a state that names points. -/
def placed (s : State) : State where
  board := s.board
  men := s.men
  marked := s.marked
  occupied := s.occupied
  selected := s.selected
  lastMill := s.lastMill
  usedLines := s.usedLines
  lastMove := s.lastMove

end State

/-- A side has men on live points only. -/
theorem Layout.Agrees.onBoard_of_mem_men {l : Layout} (h : l.Agrees) {c : Side} {p : Point}
    (hp : (l.men.get c).contains p = true) : Point.onBoard p = true := by
  apply h.onBoard_of_content
  rw [(h.men c p).1 hp]
  exact Side.man_ne_empty c

namespace Symmetry

variable (t : Symmetry)

/-- Image of the start and end of a slide. -/
def onEnds (l : Point × Point) : Point × Point := (t.onPoint l.1, t.onPoint l.2)

/-- What the second state names are the images of what the first one names. -/
structure Places (s s' : State) : Prop where
  agrees : s.Agrees
  agrees' : s'.Agrees
  content : ∀ p, Point.onBoard p = true → s'.content (t.onPoint p) = s.content p
  selected : s'.selected = s.selected.map t.onPoint
  lastMill : ∀ c, s'.lastMill.get c = (s.lastMill.get c).map t.onEnds
  usedLines : ∀ c, t.Carries (s.usedLines.get c) (s'.usedLines.get c)
  lastMove : s'.lastMove = t.onMove s.lastMove

/-- A slide between live points is the remembered one if its image is. -/
theorem map_onEnds_beq (l : Option (Point × Point)) {a b : Point} (ha : Point.onBoard a = true)
    (hb : Point.onBoard b = true) :
    (l.map t.onEnds == some (t.onPoint a, t.onPoint b)) = (l == some (a, b)) := by
  rw [Bool.eq_iff_iff, beq_iff_eq, beq_iff_eq]
  cases l with
  | none => simp
  | some l =>
      simp only [Option.map_some, Option.some.injEq, onEnds, Prod.ext_iff,
        t.onPoint_eq_iff ha, t.onPoint_eq_iff hb]

end Symmetry

namespace Position

/-- The second position is what a symmetry makes of the first, up to the key. -/
structure Mirrored (t : Symmetry) (pos q : Position) : Prop where
  variant : q.variant = pos.variant
  plain : q.state.plain = pos.state.plain
  placed : t.Places pos.state.placed q.state.placed

namespace Mirrored

variable {t : Symmetry} {pos q : Position} {p a b : Point} (h : Mirrored t pos q)
include h

/-! ## The same in both -/

theorem rule : q.rule = pos.rule :=
  (congrArg Variant.rule h.variant :)

theorem side : q.state.side = pos.state.side :=
  (congrArg State.side h.plain :)

theorem phase : q.state.phase = pos.state.phase :=
  (congrArg State.phase h.plain :)

theorem action : q.state.action = pos.state.action :=
  (congrArg State.action h.plain :)

theorem owed : q.state.owed = pos.state.owed :=
  (congrArg State.owed h.plain :)

theorem takesOwn : q.state.takesOwn = pos.state.takesOwn :=
  (congrArg State.takesOwn h.plain :)

theorem quiet : q.state.quiet = pos.state.quiet :=
  (congrArg State.quiet h.plain :)

theorem freesMover : q.state.freesMover = pos.state.freesMover :=
  (congrArg State.freesMover h.plain :)

theorem onBoard : q.state.onBoard = pos.state.onBoard :=
  (congrArg (fun s : State => s.onBoard) h.plain :)

theorem inHand : q.state.inHand = pos.state.inHand :=
  (congrArg (fun s : State => s.inHand) h.plain :)

/-! ## Carried along -/

theorem agrees : pos.state.Agrees :=
  ⟨h.placed.agrees.outside, h.placed.agrees.men, h.placed.agrees.marked, h.placed.agrees.occupied⟩

theorem agrees' : q.state.Agrees :=
  ⟨h.placed.agrees'.outside, h.placed.agrees'.men, h.placed.agrees'.marked,
    h.placed.agrees'.occupied⟩

/-- A point holds what its image holds. -/
theorem content (p : Point) : q.contentAt (t.onPoint p) = pos.contentAt p := by
  cases hp : Point.onBoard p with
  | true => exact h.placed.content p hp
  | false =>
      -- nothing stands outside the board, and the image is outside as well
      have himage := h.agrees'.outside (t.onPoint p) ((t.onBoard_onPoint_eq p).trans hp)
      exact himage.trans (h.agrees.outside p hp).symm

theorem selected : q.state.selected = pos.state.selected.map t.onPoint := h.placed.selected

theorem lastMill (c : Side) :
    q.state.lastMill.get c = (pos.state.lastMill.get c).map t.onEnds := h.placed.lastMill c

theorem usedLines (c : Side) :
    t.Carries (pos.state.usedLines.get c) (q.state.usedLines.get c) := h.placed.usedLines c

/-- The colours on a point and on its image are the same. -/
theorem colourAt (p : Point) : q.colourAt (t.onPoint p) = pos.colourAt p := by
  rw [Position.colourAt, Position.colourAt, h.content]

/-- The men of a side are carried to its men. -/
theorem men (c : Side) : t.Carries (pos.men c) (q.men c) where
  contains p _ := by
    have hcontent : q.state.content (t.onPoint p) = pos.state.content p := h.content p
    rw [Position.men, Position.men, Bool.eq_iff_iff, h.agrees.men, h.agrees'.men, hcontent]
  live _ hp := h.agrees.onBoard_of_mem_men hp
  live' _ hp := h.agrees'.onBoard_of_mem_men hp

/-- The occupied points are carried to the occupied points. -/
theorem occupied : t.Carries pos.occupied q.occupied where
  contains p _ := by
    have hcontent : q.state.content (t.onPoint p) = pos.state.content p := h.content p
    rw [Position.occupied, Position.occupied, Bool.eq_iff_iff, h.agrees.occupied,
      h.agrees'.occupied, hcontent]
  live p hp := h.agrees.onBoard_of_content ((h.agrees.occupied p).1 hp)
  live' p hp := h.agrees'.onBoard_of_content ((h.agrees'.occupied p).1 hp)

/-! ## Mills -/

/-- As many lines through a point lie within a set as lines through its image within the image of
the set. -/
theorem linesWithin (hp : Point.onBoard p = true) {owned owned' : Bitboard}
    (howned : t.Carries owned owned') :
    q.linesWithin (t.onPoint p) owned' = pos.linesWithin p owned := by
  rw [Position.linesWithin, Position.linesWithin, h.rule]
  exact t.countP_partners hp fun pair hpair => howned.covers hpair

/-- The man on a point and that on its image belong to the same side. -/
theorem sideAt? (p : Point) : q.sideAt? (t.onPoint p) = pos.sideAt? p := by
  rw [Position.sideAt?, Position.sideAt?, h.colourAt]

/-- A man and its image stand in as many mills. -/
theorem millsAt (hp : Point.onBoard p = true) : q.millsAt (t.onPoint p) = pos.millsAt p := by
  simp only [Position.millsAt, h.sideAt?]
  cases pos.sideAt? p with
  | none => rfl
  | some c => exact h.linesWithin hp (h.men c)

/-- A slide and its image close as many mills. -/
theorem potentialMills (ha : Point.onBoard a = true) (hb : Point.onBoard b = true)
    (c : Option Side) :
    q.potentialMills (t.onPoint b) c (t.onPoint a) = pos.potentialMills b c a := by
  cases c with
  | none =>
      simp only [Position.potentialMills, h.sideAt?]
      cases pos.sideAt? b with
      | none => rfl
      | some c => exact h.linesWithin hb ((h.men c).erase ha)
  | some c =>
      simp only [Position.potentialMills, h.rule, h.side]
      split
      · apply t.countP_partners hb
        intro pair hpair
        rw [((h.men c).erase ha).covers hpair, (h.usedLines _).covers (hpair.insert hb)]
      · exact h.linesWithin hb ((h.men c).erase ha)

/-- All men of a side stand in mills in both positions or in neither. -/
theorem allInMills (c : Side) : q.allInMills c = pos.allInMills c :=
  (h.men c).all_points fun p hp => by rw [h.millsAt hp]

/-- A side has as many mills in both positions. -/
theorem millCount (c : Side) : q.millCount c = pos.millCount c := by
  rw [Position.millCount, Position.millCount, h.rule, (t.lines_perm _).countP_eq, List.countP_map]
  apply List.countP_congr
  intro line hline
  rw [Function.comp_apply, (h.men c).covers (t.carries_line hline)]

/-! ## Freedom -/

/-- A point touches a colour if its image does. -/
theorem touches (hp : Point.onBoard p = true) (c : Colour) :
    q.touches (t.onPoint p) c = pos.touches p c := by
  rw [Position.touches, Position.touches, Position.neighbours, Position.neighbours, h.rule,
    (t.neighbours_perm hp _).any_eq, List.any_map]
  simp only [Function.comp_def, h.colourAt]

theorem canFly (c : Side) : q.canFly c = pos.canFly c := by
  rw [Position.canFly, Position.canFly, h.rule, h.onBoard, h.inHand]

/-- As many men stand on both boards. -/
theorem totalOnBoard : q.totalOnBoard = pos.totalOnBoard := by
  rw [Position.totalOnBoard, Position.totalOnBoard, h.onBoard]

/-- A side is blocked in both positions or in neither. -/
theorem isBlocked (c : Side) : q.isBlocked c = pos.isBlocked c := by
  simp only [Position.isBlocked, h.totalOnBoard, h.rule, h.onBoard]
  split
  · rfl
  · split
    · rfl
    · -- the image of a man has an empty neighbour if the man has one
      apply (h.men c).all_points
      intro p hp
      rw [Bool.eq_iff_iff, Bitboard.isEmpty_inter_compl, Bitboard.isEmpty_inter_compl]
      exact (t.carries_around hp _).forall_iff fun b hb => by rw [h.occupied.contains b hb]

theorem isEndgameLimitReached : q.isEndgameLimitReached = pos.isEndgameLimitReached := by
  simp only [Position.isEndgameLimitReached, Position.isEndgame, h.rule, h.phase, h.onBoard,
    h.quiet]

/-- A side is beaten in both positions or in neither. -/
theorem isBeaten (c : Side) : q.isBeaten c = pos.isBeaten c := by
  simp only [Position.isBeaten, h.rule, h.onBoard, h.inHand]

/-! ## Removals and slides back -/

/-- Removals take men of the same side in both positions. -/
theorem removalTarget : q.removalTarget = pos.removalTarget := by
  simp only [Position.removalTarget, h.side, h.takesOwn]

theorem isFreeingRemoval : q.isFreeingRemoval = pos.isFreeingRemoval := by
  simp only [Position.isFreeingRemoval, Position.isFullBoardRemoval, h.rule, h.phase, h.inHand,
    h.millCount, h.freesMover, h.side, h.isBlocked]

/-- A slide undoes the last mill if its image does. -/
theorem returnsToMill (ha : Point.onBoard a = true) (hb : Point.onBoard b = true) :
    q.returnsToMill (t.onPoint a) (t.onPoint b) = pos.returnsToMill a b := by
  have hafter := ((h.men pos.state.side).erase ha).insert hb
  simp only [Position.returnsToMill, h.rule, h.side, h.lastMill, t.map_onEnds_beq _ hb ha,
    h.linesWithin ha hafter, h.linesWithin hb hafter, h.millsAt ha]

/-- A slide is barred if its image is. -/
theorem isBarredSlide (ha : Point.onBoard a = true) (hb : Point.onBoard b = true) :
    q.isBarredSlide (t.onPoint a) (t.onPoint b) = pos.isBarredSlide a b := by
  have hlast : ((pos.state.lastMill.get pos.state.side).map t.onEnds).any
      (fun l => l.2 == t.onPoint a) =
        (pos.state.lastMill.get pos.state.side).any fun l => l.2 == a := by
    cases pos.state.lastMill.get pos.state.side with
    | none => rfl
    | some l =>
        simp only [Option.map_some, Option.any_some, Symmetry.onEnds]
        rw [Bool.eq_iff_iff, beq_iff_eq, beq_iff_eq, t.onPoint_eq_iff ha]
  simp only [Position.isBarredSlide, h.rule, h.side, h.lastMill, hlast, h.potentialMills ha hb,
    h.millsAt ha, h.returnsToMill ha hb]

end Mirrored

end Position

end Morris
