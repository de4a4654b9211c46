import Morris.Proofs.Progress.Freedom

/-!
# Turns that can be taken

`Rule.Lively` names rules under which no position is dead. This module says what such rules keep
true from turn to turn. A position is `Due` when nothing is owed and the side to move is to place or
to slide; it is `Earned` when one removal is owed among the men of the other side, and in `Arrears`
when removals are owed after placing. These are the cases of `Open`. A position is `Live` if it is
open, no side is beaten, and the side to move is not blocked when it has to slide.

A move gives the turn to a side and then settles. Once the men have been moved and nothing is owed
(`Moved`), the end of placing or the other side's turn is open (`Moved.open_endPlacingOrPass`), and
settling an open position ends the game or leaves it live (`Open.settle`).
-/

set_option autoImplicit false

namespace Morris

/-! ## Rules -/

namespace Rule

/-- The sides place in turn: nobody slides while men are being placed, and no mill takes a man from
the hand of the side that moves next. -/
def Alternates (r : Rule) : Prop :=
  r.mayMoveWhilePlacing = false ∧ r.millAction ≠ .takeFromHandAndPass

/-- No point is barred, no side keeps the turn after a mill that takes from a hand or after a
removal that frees it, and a full board is not answered by removals. -/
def Direct (r : Rule) : Prop :=
  r.millAction ≠ .markPoint ∧ r.millAction ≠ .takeFromHandAndMove ∧
    r.stalemateAction ≠ .removeAndMove ∧
      (r.pieceCount = 12 → r.fullBoardAction = .firstSideLoses ∨ r.fullBoardAction = .draw)

/-- Rules under which play does not get stuck: a move earns one removal at most, and either the
sides place in turn, where barred points and removals by a blocked side do not go together, or the
rule is direct. -/
def Lively (r : Rule) : Prop :=
  r.mayRemoveMultiple = false ∧
    ((r.Alternates ∧ (r.millAction = .markPoint → r.stalemateAction.removes = false)) ∨ r.Direct)

instance (r : Rule) : Decidable r.Alternates :=
  inferInstanceAs (Decidable (_ ∧ _))

instance (r : Rule) : Decidable r.Direct :=
  inferInstanceAs (Decidable (_ ∧ _ ∧ _ ∧ (_ → _)))

instance (r : Rule) : Decidable r.Lively :=
  inferInstanceAs (Decidable (_ ∧ ((_ ∧ (_ → _)) ∨ _)))

/-- Every built-in rule is lively. -/
theorem lively_of_mem_presets : ∀ r ∈ presets, r.Lively := by decide

namespace Lively

variable {r : Rule}

/-- Under a lively rule that bars points, the sides place in turn and a blocked side removes
nothing. -/
theorem alternates_of_markPoint (h : r.Lively) (hmark : r.millAction = .markPoint) :
    r.Alternates ∧ r.stalemateAction.removes = false := by
  rcases h.2 with ⟨halternates, hbars⟩ | hdirect
  · exact ⟨halternates, hbars hmark⟩
  · exact absurd hmark hdirect.1

theorem alternates_of_takeFromHandAndMove (h : r.Lively)
    (hraid : r.millAction = .takeFromHandAndMove) : r.Alternates := by
  rcases h.2 with ⟨halternates, _⟩ | hdirect
  · exact halternates
  · exact absurd hraid hdirect.2.1

theorem alternates_of_removeAndMove (h : r.Lively)
    (hfrees : r.stalemateAction = .removeAndMove) : r.Alternates := by
  rcases h.2 with ⟨halternates, _⟩ | hdirect
  · exact halternates
  · exact absurd hfrees hdirect.2.2.1

end Lively

end Rule

namespace Position

variable {pos next : Position} {c : Side}

/-! ## What is kept from turn to turn -/

/-- No man is left to place. -/
def HandsEmpty (pos : Position) : Prop := ∀ c, pos.state.inHand.get c = 0

/-- The hands get empty in step: Black has as many men in hand as White, and one more when it is
Black's turn. -/
def InStep (pos : Position) (c : Side) : Prop :=
  pos.HandsEmpty ∨
    pos.state.inHand.black = pos.state.inHand.white + if c = .black then 1 else 0

/-- What holds of the men when `c` is the side that places or slides next. -/
structure Ground (pos : Position) (c : Side) : Prop where
  /-- There is an empty point for every man in hand. -/
  room : pos.state.inHand.white + pos.state.inHand.black ≤ pos.vacancies
  /-- A side with men on the board faces some of the other side. -/
  met : pos.state.onBoard.get c = 0 ∨ pos.state.onBoard.get c.other ≠ 0
  inStep : pos.rule.Alternates → pos.InStep c
  marks : pos.rule.millAction ≠ .markPoint → pos.Unmarked

/-- Nothing is owed. -/
structure Clear (pos : Position) : Prop where
  owed : pos.state.owed = .both 0
  takesOwn : pos.state.takesOwn = .both false
  frees : pos.state.freesMover = false

/-- The men have been moved and nothing is owed, so that the other side plays next. -/
structure Moved (pos : Position) : Prop extends Ground pos pos.state.side.other, Clear pos where
  man : pos.state.onBoard.get pos.state.side ≠ 0
  phase : pos.state.phase = .placing ∨ (pos.state.phase = .moving ∧ pos.Unmarked)

/-- The side to move is to place a man or to slide one. -/
structure Due (pos : Position) : Prop extends Ground pos pos.state.side, Clear pos where
  men : pos.totalOnBoard < 24
  turn : (pos.state.phase = .placing ∧ pos.state.action = .place ∧
      pos.state.inHand.get pos.state.side ≠ 0) ∨
    (pos.state.phase = .moving ∧ pos.state.action = .select ∧
      pos.state.inHand.get pos.state.side = 0 ∧ pos.Unmarked)

/-- The side to move is to remove one man of the other side, which plays next. -/
structure Earned (pos : Position) : Prop extends Ground pos pos.state.side.other where
  owed : pos.state.owed = (PerSide.both 0).set pos.state.side 1
  takesOwn : pos.state.takesOwn = .both false
  frees : pos.state.freesMover = false
  men : ∀ c, pos.state.onBoard.get c ≠ 0
  phase : pos.state.phase = .placing ∨ (pos.state.phase = .moving ∧ pos.Unmarked)
  action : pos.state.action = .remove
  notFull : pos.isFullBoardRemoval = false

/-- Removals are owed after placing. -/
structure Arrears (pos : Position) : Prop where
  hands : pos.HandsEmpty
  owes : pos.state.owed.get pos.state.side ≠ 0
  takesOwn : ∀ c, pos.state.owed.get c = 0 → pos.state.takesOwn.get c = false
  /-- A removal that lets a side move on is the only one owed, by a side that is blocked. -/
  frees : pos.state.freesMover = true →
    pos.state.owed = (PerSide.both 0).set pos.state.side 1 ∧ pos.isBlocked pos.state.side = true
  phase : pos.state.phase = .moving
  action : pos.state.action = .remove
  unmarked : pos.Unmarked

/-- A position in which the turn has been given and is to be settled. -/
inductive Open (pos : Position) : Prop
  | due : pos.Due → Open pos
  | earned : pos.Earned → Open pos
  | arrears : pos.Arrears → Open pos

/-- A position in which play can go on. -/
structure Live (pos : Position) : Prop where
  unbeaten : ∀ c, pos.isBeaten c = false
  turn : pos.Open
  free : pos.state.action = .select → pos.isBlocked pos.state.side = false

/-- The game is over, or play can go on. -/
def OverOrLive (pos : Position) : Prop := pos.state.phase = .finished ∨ pos.Live

/-! ## Frames -/

theorem SameMen.vacancies (h : pos.SameMen next) : next.vacancies = pos.vacancies := by
  rw [Position.vacancies, Position.vacancies, show next.contentAt = pos.contentAt from
    funext h.content]

theorem SameMen.unmarked (h : pos.SameMen next) (hunmarked : pos.Unmarked) : next.Unmarked := by
  intro q
  rw [h.content]
  exact hunmarked q

/-- Lifting marks does not beat a side. -/
theorem Lifts.isBeaten (h : pos.Lifts next) (c : Side) : next.isBeaten c = pos.isBeaten c := by
  rw [Position.isBeaten, Position.isBeaten, h.onBoard, h.inHand, h.rule]

theorem SameMen.isBeaten (h : pos.SameMen next) (c : Side) : next.isBeaten c = pos.isBeaten c :=
  h.lifts.isBeaten c

/-- A side is blocked or not by the men alone. -/
theorem SameMen.isBlocked (h : pos.SameMen next) (c : Side) :
    next.isBlocked c = pos.isBlocked c := by
  rw [Position.isBlocked, Position.isBlocked, totalOnBoard, totalOnBoard, occupied, occupied, men,
    men, h.rule, h.layout]

theorem SameTurn.isFullBoardRemoval (h : pos.SameTurn next) :
    next.isFullBoardRemoval = pos.isFullBoardRemoval := by
  simp only [Position.isFullBoardRemoval, millCount, men, h.rule, h.phase, h.layout]

theorem Ground.of_sameMen (hground : pos.Ground c) (h : pos.SameMen next) : next.Ground c where
  room := by
    rw [h.vacancies, h.layout]
    exact hground.room
  met := by
    rw [h.layout]
    exact hground.met
  inStep halternates := by
    rw [h.rule] at halternates
    rw [InStep, HandsEmpty, h.layout]
    exact hground.inStep halternates
  marks hmark := by
    rw [h.rule] at hmark
    exact h.unmarked (hground.marks hmark)

/-! A turn is what it was where only the held man, the last mill or the record of moves changes. -/

section Unchanged

variable (h : pos.SameTurn next)
include h

theorem Clear.of_sameTurn (hclear : pos.Clear) : next.Clear where
  owed := h.owed.trans hclear.owed
  takesOwn := h.takesOwn.trans hclear.takesOwn
  frees := h.frees.trans hclear.frees

theorem Moved.of_sameTurn (hmoved : pos.Moved) : next.Moved where
  toGround := by
    rw [h.side]
    exact hmoved.toGround.of_sameMen h.toSameMen
  toClear := hmoved.toClear.of_sameTurn h
  man := by
    rw [h.side, h.layout]
    exact hmoved.man
  phase := by
    rw [h.phase]
    exact hmoved.phase.imp_right fun hmoving => ⟨hmoving.1, h.unmarked hmoving.2⟩

/-- Nothing but the men, the hands and the turn matters. -/
theorem Due.of_sameTurn (hdue : pos.Due) : next.Due where
  toGround := by
    rw [h.side]
    exact hdue.toGround.of_sameMen h.toSameMen
  toClear := hdue.toClear.of_sameTurn h
  men := by
    rw [totalOnBoard, h.layout]
    exact hdue.men
  turn := by
    rw [h.phase, h.action, h.side, h.layout]
    refine hdue.turn.imp_right ?_
    rintro ⟨hmoving, hselect, hhand, hunmarked⟩
    exact ⟨hmoving, hselect, hhand, h.unmarked hunmarked⟩

theorem Earned.of_sameTurn (hearned : pos.Earned) : next.Earned where
  toGround := by
    rw [h.side]
    exact hearned.toGround.of_sameMen h.toSameMen
  owed := by
    rw [h.owed, h.side]
    exact hearned.owed
  takesOwn := h.takesOwn.trans hearned.takesOwn
  frees := h.frees.trans hearned.frees
  men := by
    rw [h.layout]
    exact hearned.men
  phase := by
    rw [h.phase]
    exact hearned.phase.imp_right fun hmoving => ⟨hmoving.1, h.unmarked hmoving.2⟩
  action := h.action.trans hearned.action
  notFull := h.isFullBoardRemoval.trans hearned.notFull

theorem Arrears.of_sameTurn (harrears : pos.Arrears) : next.Arrears where
  hands := by
    rw [HandsEmpty, h.layout]
    exact harrears.hands
  owes := by
    rw [h.owed, h.side]
    exact harrears.owes
  takesOwn := by
    rw [h.owed, h.takesOwn]
    exact harrears.takesOwn
  frees := by
    rw [h.frees, h.owed, h.side, h.isBlocked]
    exact harrears.frees
  phase := h.phase.trans harrears.phase
  action := h.action.trans harrears.action
  unmarked := h.unmarked harrears.unmarked

theorem Live.of_sameTurn (hlive : pos.Live) : next.Live where
  unbeaten c := (h.isBeaten c).trans (hlive.unbeaten c)
  turn := by
    cases hlive.turn with
    | due hdue => exact .due (hdue.of_sameTurn h)
    | earned hearned => exact .earned (hearned.of_sameTurn h)
    | arrears harrears => exact .arrears (harrears.of_sameTurn h)
  free := by
    rw [h.action, h.side, h.isBlocked]
    exact hlive.free

end Unchanged

/-! ## Small facts -/

/-- If the hands get empty in step and the side that is next has none left, then both are empty. -/
theorem InStep.handsEmpty (h : pos.InStep c) (hhand : pos.state.inHand.get c = 0) :
    pos.HandsEmpty := by
  rcases h with hempty | hstep
  · exact hempty
  · -- Black is never to place with an empty hand before White has placed its last man
    intro d
    cases c <;> cases d <;> simp only [PerSide.get] at hhand ⊢ <;> simp at hstep <;> omega

/-- The other side of one that has men on the board faces some. -/
theorem Ground.of_man (hman : pos.state.onBoard.get c ≠ 0)
    (hroom : pos.state.inHand.white + pos.state.inHand.black ≤ pos.vacancies)
    (hstep : pos.rule.Alternates → pos.InStep c.other)
    (hmarks : pos.rule.millAction ≠ .markPoint → pos.Unmarked) : pos.Ground c.other where
  room := hroom
  met := by
    rw [Side.other_other]
    exact Or.inr hman
  inStep := hstep
  marks := hmarks

theorem HandsEmpty.inStep (h : pos.HandsEmpty) (c : Side) : pos.InStep c := Or.inl h

theorem HandsEmpty.ground (h : pos.HandsEmpty) (hmen : ∀ c, pos.state.onBoard.get c ≠ 0)
    (hunmarked : pos.Unmarked) (c : Side) : pos.Ground c where
  room := by
    have hwhite := h .white
    have hblack := h .black
    simp only [PerSide.get] at hwhite hblack
    omega
  met := Or.inr (hmen _)
  inStep _ := h.inStep c
  marks _ := hunmarked

/-- A side without men in hand that is not beaten has men on the board. -/
theorem Consistent.two_le_onBoard (h : pos.Consistent) (hunbeaten : pos.isBeaten c = false)
    (hhand : pos.state.inHand.get c = 0) : 2 ≤ pos.state.onBoard.get c := by
  have hleast := ((Rule.valid_iff pos.rule).1 h.valid).2.2.1.1
  rw [isBeaten, decide_eq_false_iff_not, hhand] at hunbeaten
  omega

theorem Consistent.men_of_handsEmpty (h : pos.Consistent)
    (hunbeaten : ∀ c, pos.isBeaten c = false) (hhands : pos.HandsEmpty) (c : Side) :
    pos.state.onBoard.get c ≠ 0 := by
  have := h.two_le_onBoard (hunbeaten c) (hhands c)
  omega

/-- Placing is done when the hands are empty and nothing is owed. -/
theorem isPlacingDone_of_handsEmpty (hphase : pos.state.phase = .placing)
    (hhands : pos.HandsEmpty) (hclear : pos.Clear) : pos.isPlacingDone = true := by
  have hwhite := hhands .white
  have hblack := hhands .black
  simp only [PerSide.get] at hwhite hblack
  simp [isPlacingDone, hphase, hwhite, hblack, hclear.owed, PerSide.both]

theorem Due.owed_eq_zero (h : pos.Due) : pos.state.owed.get pos.state.side = 0 := by
  rw [h.owed, PerSide.get_both]

theorem Due.action_ne_remove (h : pos.Due) : pos.state.action ≠ .remove := by
  rcases h.turn with ⟨_, haction, _⟩ | ⟨_, haction, _⟩ <;> rw [haction] <;> decide

/-- While men are placed, the side that is due has one in hand. -/
theorem Due.of_placing (h : pos.Due) (hphase : pos.state.phase = .placing) :
    pos.state.action = .place ∧ pos.state.inHand.get pos.state.side ≠ 0 := by
  rcases h.turn with ⟨_, hturn⟩ | ⟨hmoving, _⟩
  · exact hturn
  · rw [hphase] at hmoving
    cases hmoving

/-- While men are slid, the side that is due has none in hand, and no mark is left. -/
theorem Due.of_moving (h : pos.Due) (hphase : pos.state.phase = .moving) :
    pos.state.action = .select ∧ pos.state.inHand.get pos.state.side = 0 ∧ pos.Unmarked := by
  rcases h.turn with ⟨hplacing, _⟩ | ⟨_, hturn⟩
  · rw [hphase] at hplacing
    cases hplacing
  · exact hturn

theorem Due.moving_of_select (h : pos.Due) (haction : pos.state.action = .select) :
    pos.state.phase = .moving := by
  rcases h.turn with ⟨_, hplace, _⟩ | ⟨hmoving, _⟩
  · rw [haction] at hplace
    cases hplace
  · exact hmoving

theorem Open.inProgress (h : pos.Open) :
    pos.state.phase = .placing ∨ pos.state.phase = .moving := by
  cases h with
  | due hdue => exact hdue.turn.imp And.left And.left
  | earned hearned => exact hearned.phase.imp_right And.left
  | arrears harrears => exact Or.inr harrears.phase

/-- A side that is not to remove owes nothing. -/
theorem Open.due_of_action (h : pos.Open) (haction : pos.state.action ≠ .remove) : pos.Due := by
  cases h with
  | due hdue => exact hdue
  | earned hearned => exact absurd hearned.action haction
  | arrears harrears => exact absurd harrears.action haction

theorem turnToRemoval_eq_self
    (h : pos.state.owed.get pos.state.side ≠ 0 → pos.state.action = .remove) :
    pos.turnToRemoval = pos := by
  simp only [turnToRemoval]
  split
  · rfl
  · rename_i howes
    have hsame : { pos.state with action := .remove } = pos.state := by
      rw [← h howes]
    rw [mapState, hsame]

/-- Where the turn has been given, there is no removal left to turn to. -/
theorem Open.turnToRemoval_eq (h : pos.Open) : pos.turnToRemoval = pos := by
  apply turnToRemoval_eq_self
  intro howes
  cases h with
  | due hdue => exact absurd hdue.owed_eq_zero howes
  | earned hearned => exact hearned.action
  | arrears harrears => exact harrears.action

/-! ## Giving the turn -/

/-- Giving the turn to a side with ground to play on makes it due. -/
theorem due_giveTurn (hground : pos.Ground c) (hclear : pos.Clear) (hmen : pos.totalOnBoard < 24)
    (hunmarked : pos.state.inHand.get c = 0 → pos.Unmarked) : (pos.giveTurn c).Due := by
  have hphase : (pos.giveTurn c).state.phase =
      if pos.state.inHand.get c = 0 then .moving else .placing := rfl
  have haction : (pos.giveTurn c).state.action =
      if pos.state.owed.get c ≠ 0 then .remove
      else if pos.state.inHand.get c = 0 then .select else .place := rfl
  -- nothing is owed, so the side is to place or, when its hand is empty, to slide
  have howed : ¬ pos.state.owed.get c ≠ 0 := by
    rw [hclear.owed, PerSide.get_both]
    exact fun h => h rfl
  rw [if_neg howed] at haction
  have hturn : ((pos.giveTurn c).state.phase = .placing ∧ (pos.giveTurn c).state.action = .place ∧
        pos.state.inHand.get c ≠ 0) ∨
      ((pos.giveTurn c).state.phase = .moving ∧ (pos.giveTurn c).state.action = .select ∧
        pos.state.inHand.get c = 0 ∧ pos.Unmarked) := by
    rw [hphase, haction]
    by_cases hhand : pos.state.inHand.get c = 0
    · rw [if_pos hhand, if_pos hhand]
      exact Or.inr ⟨rfl, rfl, hhand, hunmarked hhand⟩
    · rw [if_neg hhand, if_neg hhand]
      exact Or.inl ⟨rfl, rfl, hhand⟩
  exact ⟨hground.of_sameMen (sameMen_giveTurn pos c),
    ⟨hclear.owed, hclear.takesOwn, hclear.frees⟩, hmen, hturn⟩

/-- A side that owes a removal after placing and gets the turn is to make it. -/
theorem arrears_giveTurn (hhands : pos.HandsEmpty) (howes : pos.state.owed.get c ≠ 0)
    (htakes : ∀ d, pos.state.owed.get d = 0 → pos.state.takesOwn.get d = false)
    (hfrees : pos.state.freesMover = false) (hunmarked : pos.Unmarked) :
    (pos.giveTurn c).Arrears where
  hands := hhands
  owes := howes
  takesOwn := htakes
  frees h := by
    rw [show (pos.giveTurn c).state.freesMover = pos.state.freesMover from rfl, hfrees] at h
    cases h
  phase := moving_giveTurn (hhands c)
  action := if_pos howes
  unmarked := hunmarked

/-! ## Settling -/

/-- The other side can play after a side that has to slide and cannot. -/
theorem Due.ground_other (h : pos.Due) (hstuck : pos.Stuck) (hcons : pos.Consistent) :
    pos.Ground pos.state.side.other ∧ pos.state.inHand.get pos.state.side = 0 ∧ pos.Unmarked ∧
      pos.state.onBoard.get pos.state.side ≠ 0 := by
  obtain ⟨_, hhand, hunmarked⟩ := h.of_moving hstuck.moving
  have hmen := hcons.two_le_onBoard (hstuck.unbeaten pos.state.side) hhand
  have hman : pos.state.onBoard.get pos.state.side ≠ 0 := by omega
  refine ⟨.of_man hman h.room (fun halternates => ?_) h.marks, hhand, hunmarked, hman⟩
  exact ((h.inStep halternates).handsEmpty hhand).inStep _

/-- A blocked side that passes leaves the other side with a move. -/
theorem Due.live_passed (h : pos.Due) (hstuck : pos.Stuck) (hcons : pos.Consistent) :
    pos.passTurn.turnToRemoval.Live := by
  obtain ⟨hground, _, hunmarked, hman⟩ := h.ground_other hstuck hcons
  have hdue : pos.passTurn.Due := due_giveTurn hground h.toClear h.men fun _ => hunmarked
  have hfree := hcons.not_isBlocked_other hunmarked h.men hman hstuck.blocked
  rw [(Open.due hdue).turnToRemoval_eq]
  exact ⟨hstuck.unbeaten, .due hdue, fun _ => hfree⟩

theorem not_isFullBoardRemoval_of_moving (h : pos.state.phase = .moving) :
    pos.isFullBoardRemoval = false := by
  simp [isFullBoardRemoval, h]

/-- A blocked side that is to remove a man has one to remove. -/
theorem Due.live_freed (h : pos.Due) (hstuck : pos.Stuck) (hcons : pos.Consistent)
    (hrule : pos.rule.Lively) {frees : Bool}
    (hwhy : pos.rule.stalemateAction = .removeAndMove ∨
      (pos.rule.stalemateAction = .removeAndPass ∧ frees = pos.state.freesMover)) :
    (pos.mapState fun s => { s with freesMover := frees }).oweFreeing.turnToRemoval.Live := by
  obtain ⟨hground, hhand, hunmarked, hman⟩ := h.ground_other hstuck hcons
  generalize hnext :
    (pos.mapState fun s => { s with freesMover := frees }).oweFreeing.turnToRemoval = next
  have howed : pos.state.owed.set pos.state.side 1 = (PerSide.both 0).set pos.state.side 1 := by
    rw [h.owed]
  have howes : ¬ (pos.state.owed.set pos.state.side 1).get pos.state.side = 0 := by
    rw [PerSide.get_set_self]
    decide
  have heq : next = (pos.mapState fun s => { s with freesMover := frees }).oweFreeing.mapState
      fun s => { s with action := .remove } := by
    rw [← hnext, turnToRemoval]
    exact if_neg howes
  subst heq
  refine ⟨hstuck.unbeaten, ?_, fun haction => by cases haction⟩
  cases frees with
  | false =>
      -- the other side has a man next to the blocked ones
      obtain ⟨b, hb, hempty⟩ := exists_empty_of_vacancies (hcons.vacancies_pos hunmarked h.men)
      have hnot : pos.contentAt b ≠ pos.state.side.man := by
        rw [hempty]
        exact (Side.man_ne_empty _).symm
      obtain ⟨p, hp, _⟩ := hcons.exists_touching hunmarked hstuck.blocked hman hb hnot
      refine .earned ⟨hground.of_sameMen ⟨rfl, rfl, rfl⟩, howed, h.takesOwn, rfl, fun c => ?_,
        Or.inr ⟨hstuck.moving, hunmarked⟩, rfl, not_isFullBoardRemoval_of_moving hstuck.moving⟩
      rcases Side.eq_or_eq_other c pos.state.side with rfl | rfl
      · exact hman
      · exact hcons.onBoard_ne_zero hp
  | true =>
      -- only where the sides place in turn does a side go on after freeing itself
      have halternates : pos.rule.Alternates := by
        rcases hwhy with hmoves | ⟨_, hfrees⟩
        · exact hrule.alternates_of_removeAndMove hmoves
        · rw [h.frees] at hfrees
          cases hfrees
      refine .arrears ⟨(h.inStep halternates).handsEmpty hhand, howes, fun c _ => ?_,
        fun _ => ⟨howed, hstuck.blocked⟩, hstuck.moving, rfl, hunmarked⟩
      show pos.state.takesOwn.get c = false
      rw [h.takesOwn, PerSide.get_both]

/-- Settling an open position ends the game or leaves it live. -/
theorem Open.settle (h : pos.Open) (hcons : pos.Consistent) (hrule : pos.rule.Lively) :
    pos.settle.OverOrLive := by
  have hsettling := settling_settle pos
  generalize pos.settle = next at hsettling
  -- a side that is blocked was to slide
  have hselect : pos.Stuck → pos.Due := by
    intro hstuck
    apply h.due_of_action
    rw [hstuck.action]
    decide
  cases hsettling with
  | idle hidle =>
      rcases h.inProgress with hphase | hphase <;> simp [hphase] at hidle
  | finished winner ending => exact Or.inl rfl
  | passed hstuck => exact Or.inr ((hselect hstuck).live_passed hstuck hcons)
  | freed frees hstuck hwhy => exact Or.inr ((hselect hstuck).live_freed hstuck hcons hrule hwhy)
  | kept hgoes hfree =>
      right
      rw [h.turnToRemoval_eq]
      refine ⟨hgoes.unbeaten, h, fun haction => ?_⟩
      have hdue := h.due_of_action (by rw [haction]; decide)
      exact hfree (hdue.moving_of_select haction) haction

/-! ## The end of placing -/

theorem contentAt_foldl_vacate {ps : List Point} (hps : ∀ p ∈ ps, p < 32) (pos : Position)
    (q : Point) :
    (ps.foldl vacate pos).contentAt q = if q ∈ ps then .empty else pos.contentAt q := by
  induction ps generalizing pos with
  | nil => simp
  | cons p ps ih =>
      have hrest : ∀ r ∈ ps, r < 32 := fun r hr => hps r (List.mem_cons_of_mem p hr)
      rw [List.foldl_cons, ih hrest, contentAt_vacate pos (hps p List.mem_cons_self)]
      by_cases hq : q = p
      · simp [hq]
      · simp [hq]

/-- No mark is left when the marks are cleared. -/
theorem Consistent.unmarked_clearMarks (h : pos.Consistent) : pos.clearMarks.Unmarked := by
  intro q
  have hlt : ∀ p ∈ pos.state.marked.points, p < 32 := fun p hp =>
    Bitboard.lt_of_contains ((Bitboard.mem_points _ p).1 hp)
  rw [clearMarks, contentAt_foldl_vacate hlt]
  split
  · decide
  · rename_i hnot
    rw [Bitboard.mem_points] at hnot
    exact fun hmarked => hnot ((h.agrees.marked q).2 hmarked)

theorem Clear.vacate (h : pos.Clear) (p : Point) : (pos.vacate p).Clear :=
  ⟨h.owed, h.takesOwn, h.frees⟩

theorem Clear.clearMarks (h : pos.Clear) : pos.clearMarks.Clear := by
  have hfold : ∀ (ps : List Point) (pos : Position), pos.Clear →
      (ps.foldl Position.vacate pos).Clear := by
    intro ps
    induction ps with
    | nil => exact fun _ h => h
    | cons p ps ih => exact fun pos h => ih (pos.vacate p) (h.vacate p)
  exact hfold _ pos h

/-- Each side owes a removal for its mills, even if it has none. -/
theorem removalsForMills_ne_zero (white black : Nat) (c : Side) :
    (removalsForMills white black).get c ≠ 0 := by
  rcases white with _ | w <;> rcases black with _ | b
  · cases c <;> decide
  · cases c <;> exact Nat.succ_ne_zero _
  · cases c <;> exact Nat.succ_ne_zero _
  · simp only [removalsForMills]
    split_ifs <;> cases c <;> exact Nat.succ_ne_zero _

/-- Placing ends with a turn that can be taken. Where removals follow by the number of mills, the
board may be full. -/
theorem open_of_endPlacing (h : pos.Consistent) (hclear : pos.Clear)
    (hmarks : pos.rule.millAction ≠ .markPoint → pos.Unmarked)
    (hmen : pos.rule.millAction ≠ .countMillsLater → pos.totalOnBoard < 24)
    (hfaces : pos.HandsEmpty → ∀ c, pos.state.onBoard.get c ≠ 0) {ended : Position}
    (hended : pos.endPlacing? = some ended) : ended.Open := by
  obtain ⟨hdone, hend⟩ := placingEnd_of_endPlacing hended
  have hhands : pos.HandsEmpty := hands_of_isPlacingDone hdone
  cases hend with
  | lifted hmark =>
      obtain ⟨hlifts, _⟩ := clearMarks_spec h.agrees
      have hcount : pos.rule.millAction ≠ .countMillsLater := by
        rw [hmark]
        decide
      have hhands' : pos.clearMarks.HandsEmpty := by
        intro c
        rw [hlifts.inHand]
        exact hhands c
      have hmen' : pos.clearMarks.totalOnBoard < 24 := by
        rw [totalOnBoard, hlifts.onBoard]
        exact hmen hcount
      have hground : pos.clearMarks.Ground (firstMover pos.rule) := by
        refine hhands'.ground (fun c => ?_) h.unmarked_clearMarks _
        rw [hlifts.onBoard]
        exact hfaces hhands c
      exact .due (due_giveTurn hground hclear.clearMarks hmen' fun _ => h.unmarked_clearMarks)
  | counted hcount =>
      have hunmarked : pos.Unmarked := by
        apply hmarks
        rw [hcount]
        decide
      -- whatever the mills, each side owes at least one removal
      have howes : ∀ c, pos.oweForMills.state.owed.get c ≠ 0 := fun c =>
        removalsForMills_ne_zero _ _ c
      have harrears : (pos.oweForMills.giveTurn (firstMover pos.rule)).Arrears :=
        arrears_giveTurn hhands (howes _) (fun c hzero => absurd hzero (howes c)) hclear.frees
          hunmarked
      exact .arrears harrears
  | plain hmark hcount =>
      have hground := hhands.ground (hfaces hhands) (hmarks hmark) (firstMover pos.rule)
      exact .due (due_giveTurn hground hclear (hmen hcount) fun _ => hmarks hmark)

/-- When placing does not end, the other side can be given the turn. -/
theorem Moved.due_passTurn (hmoved : pos.Moved) (h : pos.Consistent) (hrule : pos.rule.Lively)
    (hmen : pos.totalOnBoard < 24 ∨
      (pos.state.phase = .placing ∧ pos.rule.millAction = .countMillsLater))
    (hgoes : pos.endPlacing? = none) : pos.passTurn.Due := by
  refine due_giveTurn hmoved.toGround hmoved.toClear ?_ fun hhand => ?_
  · rcases hmen with hmen | ⟨hplacing, hcount⟩
    · exact hmen
    · -- some man is left to place, so there is an empty point for it
      have hroom := hmoved.room
      have hcensus := h.census
      by_contra hfull
      have hhands : pos.HandsEmpty := by
        intro c
        cases c <;> simp only [PerSide.get] <;> omega
      have hdone := isPlacingDone_of_handsEmpty hplacing hhands hmoved.toClear
      simp [endPlacing?, hdone, hcount] at hgoes
  · by_cases hmark : pos.rule.millAction = .markPoint
    · rcases hmoved.phase with hplacing | ⟨_, hunmarked⟩
      · have halternates := (hrule.alternates_of_markPoint hmark).1
        have hhands := (hmoved.inStep halternates).handsEmpty hhand
        have hdone := isPlacingDone_of_handsEmpty hplacing hhands hmoved.toClear
        simp [endPlacing?, hdone, hmark] at hgoes
      · exact hunmarked
    · exact hmoved.marks hmark

/-- When nothing is owed any more, placing ends or the other side gets the turn. -/
theorem Moved.open_endPlacingOrPass (hmoved : pos.Moved) (h : pos.Consistent)
    (hrule : pos.rule.Lively) (hmen : pos.totalOnBoard < 24 ∨
      (pos.state.phase = .placing ∧ pos.rule.millAction = .countMillsLater))
    (hfaces : pos.HandsEmpty → ∀ c, pos.state.onBoard.get c ≠ 0) :
    pos.endPlacingOrPass.Open := by
  simp only [endPlacingOrPass]
  cases hended : pos.endPlacing? with
  | some ended =>
      refine open_of_endPlacing h hmoved.toClear hmoved.marks (fun hcount => ?_) hfaces hended
      rcases hmen with hmen | ⟨_, hcounts⟩
      · exact hmen
      · exact absurd hcounts hcount
  | none => exact .due (hmoved.due_passTurn h hrule hmen hended)

end Position

end Morris
