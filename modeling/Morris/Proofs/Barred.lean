import Morris.Proofs.Marks

/-!
# Barred points

Under the rule that bars points a man taken while men are being placed leaves a mark. What a move
may do to the marks is told by `Position.Bars`: a mark comes only from such a removal, no man goes
on a mark, and a mark goes only by a move after which placing is over (`Position.PlacingOver`). Once
placing is over, no mark is left. Main statement: `playedBy_bars`, which holds in every game of
accepted moves from the beginning.

Placing is over when nothing is left to place and nothing is owed. The move that ends placing may
leave a side blocked that has to slide now, and a rule may let this side owe a removal at once. So
the marks are gone in some positions in which a removal is owed (`not_forall_marks_stay`).
-/

set_option autoImplicit false

namespace Morris.Position

variable {pos mid next : Position} {m : Move} {p : Point} {r : Nat × Position}
  {admits : Move → Prop} {rule : Rule}

/-! ## Placing is over -/

/-- The side to move can slide nowhere and owes the one removal by which it frees itself. -/
structure FreesItself (pos : Position) : Prop where
  rule : pos.rule.stalemateAction = .removeAndMove ∨ pos.rule.stalemateAction = .removeAndPass
  phase : pos.state.phase = .moving
  blocked : pos.isBlocked pos.state.side = true
  own : pos.state.owed.get pos.state.side = 1
  other : pos.state.owed.get pos.state.side.other = 0

/-- Nothing is left to place and nothing is owed, but for the removal of a blocked side. -/
structure PlacingOver (pos : Position) : Prop where
  hands : pos.HandsEmpty
  owed : (∀ c, pos.state.owed.get c = 0) ∨ pos.FreesItself

theorem FreesItself.of_sameTurn (h : pos.FreesItself) (hsame : pos.SameTurn next) :
    next.FreesItself where
  rule := by
    rw [hsame.rule]
    exact h.rule
  phase := hsame.phase.trans h.phase
  blocked := by
    rw [hsame.side, hsame.isBlocked]
    exact h.blocked
  own := by
    rw [hsame.side, hsame.owed]
    exact h.own
  other := by
    rw [hsame.side, hsame.owed]
    exact h.other

theorem PlacingOver.of_sameTurn (h : pos.PlacingOver) (hsame : pos.SameTurn next) :
    next.PlacingOver where
  hands := by
    rw [HandsEmpty, hsame.layout]
    exact h.hands
  owed := by
    rw [hsame.owed]
    exact h.owed.imp_right fun hfrees => hfrees.of_sameTurn hsame

theorem turnToRemoval_frame (pos : Position) : pos.turnToRemoval.state.owed = pos.state.owed ∧
    pos.turnToRemoval.state.side = pos.state.side ∧
      pos.turnToRemoval.state.phase = pos.state.phase := by
  simp only [turnToRemoval]
  split
  · exact ⟨rfl, rfl, rfl⟩
  · exact ⟨rfl, rfl, rfl⟩

theorem freesItself_oweFreeing (hstuck : pos.Stuck) {frees : Bool}
    (hrule : pos.rule.stalemateAction = .removeAndMove ∨ pos.rule.stalemateAction = .removeAndPass)
    (hother : pos.state.owed.get pos.state.side.other = 0) :
    (pos.mapState fun s =>
      { s with freesMover := frees }).oweFreeing.turnToRemoval.FreesItself := by
  have hsame : pos.SameMen (pos.mapState fun s => { s with freesMover := frees }).oweFreeing :=
    ⟨rfl, rfl, rfl⟩
  have hside : (pos.mapState fun s => { s with freesMover := frees }).oweFreeing.state.side =
      pos.state.side := rfl
  have howed : (pos.mapState fun s => { s with freesMover := frees }).oweFreeing.state.owed =
      pos.state.owed.set pos.state.side 1 := rfl
  have hphase : (pos.mapState fun s => { s with freesMover := frees }).oweFreeing.state.phase =
      .moving := hstuck.moving
  -- from here on only these four facts about the position that owes are used
  generalize (pos.mapState fun s => { s with freesMover := frees }).oweFreeing = owing at *
  have hturned := hsame.trans (sameMen_turnToRemoval owing)
  obtain ⟨howed', hside', hphase'⟩ := turnToRemoval_frame owing
  rw [howed] at howed'
  rw [hside] at hside'
  constructor
  case rule =>
    rw [hturned.rule]
    exact hrule
  case phase => exact hphase'.trans hphase
  case blocked =>
    rw [hside', hturned.isBlocked]
    exact hstuck.blocked
  case own => rw [hside', howed', PerSide.get_set_self]
  case other => rw [hside', howed', PerSide.get_set_of_ne _ _ (Side.other_ne _), hother]

/-- Whether a side is blocked is found out when the turn has been given. -/
theorem Settling.placingOver (h : pos.Settling next) (hhands : pos.HandsEmpty)
    (howed : ∀ c, pos.state.owed.get c = 0) : next.PlacingOver := by
  have hhands' : next.HandsEmpty := by
    rw [HandsEmpty, h.sameMen.layout]
    exact hhands
  cases h with
  | idle _ => exact ⟨hhands', Or.inl howed⟩
  | finished winner ending => exact ⟨hhands', Or.inl howed⟩
  | passed _ =>
      refine ⟨hhands', Or.inl fun c => ?_⟩
      rw [(turnToRemoval_frame pos.passTurn).1]
      exact howed c
  -- the one removal that can come to be owed is that of a blocked side
  | freed frees hstuck hrule =>
      exact ⟨hhands', Or.inr (freesItself_oweFreeing hstuck (hrule.imp_right And.left) (howed _))⟩
  | kept _ _ =>
      refine ⟨hhands', Or.inl fun c => ?_⟩
      rw [(turnToRemoval_frame pos).1]
      exact howed c

theorem owed_clearMarks (pos : Position) : pos.clearMarks.state.owed = pos.state.owed := by
  rw [clearMarks]
  generalize pos.state.marked.points = ps
  induction ps generalizing pos with
  | nil => rfl
  | cons p ps ih => exact ih (pos.vacate p)

/-! ## Marks stay until placing is over -/

/-- Every point holds what it held, or placing is over. -/
def Keeps (pos next : Position) : Prop :=
  (∀ q, next.contentAt q = pos.contentAt q) ∨ next.PlacingOver

theorem SameMen.keeps (h : pos.SameMen next) : pos.Keeps next := Or.inl h.content

theorem Keeps.of_sameMen (hsame : pos.SameMen mid) (h : mid.Keeps next) : pos.Keeps next :=
  h.imp_left fun hcontent q => (hcontent q).trans (hsame.content q)

theorem PlacingEnd.keeps (h : pos.PlacingEnd next) (hagrees : pos.state.Agrees)
    (hdone : pos.isPlacingDone = true) : pos.Keeps next ∧ pos.Keeps next.settle := by
  have hboth : pos.SameMen next → pos.Keeps next ∧ pos.Keeps next.settle := fun hsame =>
    ⟨hsame.keeps, (hsame.trans (sameMen_settle next)).keeps⟩
  -- of the three ways in which placing ends only the first touches the board
  cases h with
  | lifted hmark =>
      have hhands : (pos.clearMarks.giveTurn (firstMover pos.rule)).HandsEmpty := by
        rw [HandsEmpty, (PlacingEnd.lifted hmark).lifts hagrees |>.inHand]
        exact hands_of_isPlacingDone hdone
      have howed : ∀ c, (pos.clearMarks.giveTurn (firstMover pos.rule)).state.owed.get c = 0 := by
        intro c
        show pos.clearMarks.state.owed.get c = 0
        rw [owed_clearMarks]
        simp only [isPlacingDone, Bool.and_eq_true, beq_iff_eq] at hdone
        cases c with
        | white => exact hdone.1.2
        | black => exact hdone.2
      exact ⟨Or.inr ⟨hhands, Or.inl howed⟩,
        Or.inr ((settling_settle _).placingOver hhands howed)⟩
  | counted _ => exact hboth ((sameMen_oweForMills pos).trans (sameMen_giveTurn _ _))
  | plain _ _ => exact hboth (sameMen_giveTurn pos _)

theorem Raid.keeps (h : pos.Raid next) (hagrees : pos.state.Agrees) : pos.Keeps next := by
  cases h with
  | owed _ => exact SameMen.keeps ⟨rfl, rfl, rfl⟩
  | ended hdone hend => exact (hend.keeps hagrees hdone).2
  | passed => exact ((sameMen_giveTurn pos _).trans (sameMen_settle _)).keeps
  | kept => exact (sameMen_settle pos).keeps

theorem AfterDrop.keeps (h : pos.AfterDrop next) (hagrees : pos.state.Agrees) : pos.Keeps next := by
  cases h with
  | calm =>
      rcases endPlacingOrPass_cases pos with ⟨hdone, hend⟩ | hpass
      · exact (hend.keeps hagrees hdone).2
      · rw [hpass]
        exact ((sameMen_giveTurn pos _).trans (sameMen_settle _)).keeps
  | full => exact (sameMen_resolveFullBoard pos).keeps
  -- the raid comes first, and touches nothing on the board
  | raid n => exact (raid_takeFromHand pos n).keeps (agrees_raidHand hagrees n)
  | owed _ => exact (sameMen_oweRemovals pos _).keeps

theorem AfterTaking.keeps (h : pos.AfterTaking next) (hagrees : pos.state.Agrees) :
    pos.Keeps next := by
  have hturned : ∀ turned, pos.AfterRemovals turned →
      pos.Keeps turned ∧ pos.Keeps turned.settle := by
    -- some ways to go on after a removal settle the turn and some do not, so both are kept in hand
    intro turned hremovals
    have hboth : pos.SameMen turned → pos.Keeps turned ∧ pos.Keeps turned.settle := fun hsame =>
      ⟨hsame.keeps, (hsame.trans (sameMen_settle turned)).keeps⟩
    cases hremovals with
    | ended hdone hend => exact hend.keeps hagrees hdone
    | kept => exact hboth ⟨rfl, rfl, rfl⟩
    | passed => exact hboth ⟨rfl, rfl, rfl⟩
  cases h with
  | beaten winner ending => exact (sameMen_finish pos winner ending).keeps
  | more _ => exact (SameMen.refl pos).keeps
  | turned hremovals => exact (hturned _ hremovals).1
  | settled hremovals => exact (hturned _ hremovals).2

/-! ## What a move does to the marks -/

/-- What a move may do to the barred points. -/
structure Bars (pos : Position) (m : Move) (next : Position) : Prop where
  /-- A mark comes only from a removal while men are being placed, on the point of the man. -/
  comes : ∀ p, next.contentAt p = .marked → pos.contentAt p ≠ .marked →
    m.kind = .remove ∧ m.target = p ∧ pos.state.phase = .placing ∧ pos.rule.millAction = .markPoint
  /-- No man goes on a mark. -/
  bars : ∀ p, pos.contentAt p = .marked → ∀ c : Side, next.contentAt p ≠ c.man
  /-- A mark goes only when placing is over. -/
  goes : ∀ p, pos.contentAt p = .marked → next.contentAt p ≠ .marked → next.PlacingOver

/-- The men are moved first, which leaves all marks where they are, and the consequences follow. -/
theorem bars_of_mid (mid : Position)
    (hold : ∀ q, pos.contentAt q = .marked → mid.contentAt q = .marked)
    (hnew : ∀ q, mid.contentAt q = .marked → pos.contentAt q ≠ .marked →
      m.kind = .remove ∧ m.target = q ∧ pos.state.phase = .placing ∧
        pos.rule.millAction = .markPoint)
    (hcontent : ∀ q, next.contentAt q = mid.contentAt q ∨
      (mid.contentAt q = .marked ∧ next.contentAt q = .empty))
    (hkeeps : mid.Keeps next) : pos.Bars m next where
  comes q hmarked hnot := by
    rcases hcontent q with hsame | ⟨_, hempty⟩
    · exact hnew q (hsame.symm.trans hmarked) hnot
    · cases hempty.symm.trans hmarked
  bars q hmarked c hman := by
    rcases hcontent q with hsame | ⟨_, hempty⟩
    · exact Side.man_ne_marked c (hman.symm.trans (hsame.trans (hold q hmarked)))
    · exact Side.man_ne_empty c (hman.symm.trans hempty)
  goes q hmarked hnot := by
    rcases hkeeps with hsame | hover
    · exact absurd ((hsame q).trans (hold q hmarked)) hnot
    · exact hover

theorem Bars.log (h : pos.Bars m mid) : pos.Bars m (mid.log m) where
  comes := h.comes
  bars := h.bars
  goes q hmarked hnot := (h.goes q hmarked hnot).of_sameTurn (sameTurn_log mid m)

/-- A move that leaves the board as it is leaves the marks. -/
theorem SameMen.bars (h : pos.SameMen next) : pos.Bars m next :=
  bars_of_mid pos (fun _ => id) (fun _ hmarked hnot => absurd hmarked hnot)
    (fun q => Or.inl (h.content q)) h.keeps

theorem Consistent.bars_placeMan (h : pos.Consistent) (hp : Point.onBoard p = true)
    (hfree : pos.contentAt p = .empty) (hhand : pos.state.inHand.get pos.state.side ≠ 0) :
    pos.Bars m (pos.placeMan p).2 := by
  -- `closed` has the man on the board and its mills counted, but nothing has followed from it yet
  obtain ⟨n, closed, _, heq, hsame, hclosed⟩ := h.placeMan_spec hp hfree hhand
  have hcontent : ∀ q, closed.contentAt q =
      if q = p then pos.state.side.man else pos.contentAt q := by
    intro q
    rw [hsame.content, contentAt_drop pos hp]
  have hafter := afterDrop_cases closed n
  rw [heq]
  refine bars_of_mid closed (fun q hmarked => ?_) (fun q hmarked hnot => ?_)
    (hafter.aftermath hclosed.agrees).content (hafter.keeps hclosed.agrees)
  · have hne : q ≠ p := by
      rintro rfl
      cases hfree.symm.trans hmarked
    rw [hcontent, if_neg hne, hmarked]
  · rw [hcontent] at hmarked
    split at hmarked
    · exact absurd hmarked (Side.man_ne_marked _)
    · exact absurd hmarked hnot

theorem Consistent.bars_slideMan (h : pos.Consistent) {a : Point} (hp : Point.onBoard p = true)
    (hslide : pos.Slidable a p) : pos.Bars m (pos.slideMan a p).2 := by
  obtain ⟨n, closed, opened, _, heq, hsame, hclosed⟩ := h.slideMan_spec hp hslide
  have hcontent : ∀ q, closed.contentAt q =
      if q = p then pos.state.side.man else if q = a then .empty else pos.contentAt q := by
    intro q
    rw [hsame.content, contentAt_shift pos (h.onBoard_of_man hslide.man) hp]
  have hafter := (afterShift_cases closed a p opened n).sameMen
  rw [heq]
  refine bars_of_mid closed (fun q hmarked => ?_) (fun q hmarked hnot => ?_)
    (fun q => Or.inl (hafter.content q)) hafter.keeps
  -- neither end of the slide was marked, so no mark goes
  · have hne : q ≠ p := by
      rintro rfl
      cases hslide.free.symm.trans hmarked
    have hne' : q ≠ a := by
      rintro rfl
      exact Side.man_ne_marked _ (hslide.man.symm.trans hmarked)
    rw [hcontent, if_neg hne, if_neg hne', hmarked]
  -- and a slide leaves a man and an empty point, so none comes
  · rw [hcontent] at hmarked
    split at hmarked
    · exact absurd hmarked (Side.man_ne_marked _)
    · split at hmarked
      · cases hmarked
      · exact absurd hmarked hnot

theorem Consistent.bars_removeMan (h : pos.Consistent) (hkind : m.kind = .remove)
    (hremovable : pos.Removable m.target) :
    pos.Bars m ((pos.takeMan m.target pos.removalTarget).afterTaking pos.removalTarget) := by
  have hcontent := contentAt_takeMan h hremovable.man
  have hagrees := (h.takeMan hremovable.man).agrees
  have hafter := afterTaking_cases (pos.takeMan m.target pos.removalTarget) pos.removalTarget
  refine bars_of_mid (pos.takeMan m.target pos.removalTarget) (fun q hmarked => ?_)
    (fun q hmarked hnot => ?_) (hafter.lifts hagrees).1.content (hafter.keeps hagrees)
  -- a man stood on the point of the removal, so no mark goes
  · have hne : q ≠ m.target := by
      rintro rfl
      exact Side.man_ne_marked _ (hremovable.man.symm.trans hmarked)
    rw [hcontent, if_neg hne, hmarked]
  -- a mark can come on that point only, and only by the rule that bars points
  · rw [hcontent] at hmarked
    split at hmarked
    · rename_i htarget
      rw [leftAfterTaking] at hmarked
      split at hmarked
      · rename_i hmarks
        rw [Bool.and_eq_true, beq_iff_eq, beq_iff_eq] at hmarks
        exact ⟨hkind, htarget.symm, hmarks.2, hmarks.1⟩
      · cases hmarked
    · exact absurd hmarked hnot

theorem Sound.bars_step (h : pos.Sound) (hstep : pos.Step m r) : pos.Bars m r.2 := by
  cases hstep with
  | down hkind hdown =>
      cases hdown with
      | placed hphase hp hfree hhand =>
          -- the first man of a game starts it, so the step begins from the started position
          have hbegun := h.begun (hphase.imp_right And.left)
          have hbars : pos.begun.Bars m (pos.begun.placeMan m.target).2 :=
            hbegun.toConsistent.bars_placeMan hp hfree hhand
          exact ⟨fun q hmarked hnot => absurd (hbars.comes q hmarked hnot).1 hkind, hbars.bars,
            hbars.goes⟩
      | held s _ _ _ _ => exact SameMen.bars ⟨rfl, rfl, rfl⟩
      | slid _ _ hp hslide => exact h.toConsistent.bars_slideMan hp hslide
  | removed hkind hremovable => exact h.toConsistent.bars_removeMan hkind hremovable

/-! ## Games of accepted moves -/

theorem PlayedBy.bars (h : PlayedBy admits rule pos) (hnext : pos.apply m = .ok next) :
    pos.Bars m next := by
  obtain ⟨r, hstep, rfl⟩ := h.sound.exists_step hnext
  exact (h.sound.bars_step hstep).log

/-- A mark that is gone after some moves was lifted by one of them, after which placing was over. -/
theorem PlayedBy.placingOver_of_lifted (h : PlayedBy (fun _ => True) rule pos) {ms : List Move}
    {last : Position} (hlast : pos.applyAll? ms = some last) (hmarked : pos.contentAt p = .marked)
    (hgone : last.contentAt p ≠ .marked) :
    ∃ past rest mid, ms = past ++ rest ∧ past ≠ [] ∧ pos.applyAll? past = some mid ∧
      mid.PlacingOver := by
  induction ms generalizing pos with
  | nil =>
      cases hlast
      exact absurd hmarked hgone
  | cons m ms ih =>
      obtain ⟨next, hnext, hrest⟩ := Option.bind_eq_some_iff.1 hlast
      have hstep := toOption_eq_some_iff.1 hnext
      have hplay : ∀ past, pos.applyAll? (m :: past) = next.applyAll? past := by
        intro past
        rw [applyAll?, hnext, Option.bind_some]
      -- either this move lifts the mark, or it is still there when the rest is played
      by_cases hkept : next.contentAt p = .marked
      · obtain ⟨past, rest, mid, rfl, _, hmid, hover⟩ := ih (h.move trivial hstep) hrest hkept
        exact ⟨m :: past, rest, mid, rfl, List.cons_ne_nil _ _, (hplay past).trans hmid, hover⟩
      · have hover := (h.bars hstep).goes p hmarked hkept
        exact ⟨[m], ms, next, rfl, List.cons_ne_nil _ _, hplay [], hover⟩

/-- While men are placed and nothing is owed, the side to move has a man to place. -/
theorem PlayedBy.moving_of_handsEmpty (h : PlayedBy admits rule pos)
    (hmark : rule.millAction = .markPoint) (hgoes : pos.state.phase ≠ .finished)
    (hhands : pos.HandsEmpty) (howed : ∀ c, pos.state.owed.get c = 0) :
    pos.state.phase = .moving := by
  have hbarring := (h.overOrBarring hmark).resolve_left hgoes
  by_contra hmoving
  -- a man is to be placed unless one is to be removed, and a removal would be owed
  refine hbarring.places hmoving (fun haction => ?_) (hhands _)
  have hphase : pos.state.phase = .placing ∨ pos.state.phase = .moving := by
    cases hphase : pos.state.phase with
    | ready =>
        rw [(h.sound.stage.untouched_of_ready hphase).action] at haction
        cases haction
    | placing => exact Or.inl rfl
    | moving => exact Or.inr rfl
    | finished => exact absurd hphase hgoes
  exact (h.sound.stage.turned_of hphase).1.owes.1 haction (howed _)

/-- Once the hands are empty and men are slid, or nothing is owed, no point is marked. -/
theorem PlayedBy.unmarked_of_handsEmpty (h : PlayedBy admits rule pos)
    (hgoes : pos.state.phase ≠ .finished) (hhands : pos.HandsEmpty)
    (hover : pos.state.phase = .moving ∨ ∀ c, pos.state.owed.get c = 0) : pos.Unmarked := by
  by_cases hmark : rule.millAction = .markPoint
  · have hmoving : pos.state.phase = .moving := by
      rcases hover with hmoving | howed
      · exact hmoving
      · exact h.moving_of_handsEmpty hmark hgoes hhands howed
    exact ((h.overOrBarring hmark).resolve_left hgoes).lifted hmoving hhands
  · exact h.unmarked_of_ne hmark

/-- Without a mark the points in use are those of the men. -/
theorem Consistent.occupied_of_unmarked (h : pos.Consistent) (hunmarked : pos.Unmarked) :
    pos.occupied = pos.state.men.white.union pos.state.men.black := by
  rw [occupied, h.agrees.occupied_eq]
  apply Bitboard.ext_contains
  intro p
  have hnone : pos.state.marked.contains p = false :=
    eq_false_of_ne_true fun hmarked => hunmarked p ((h.agrees.marked p).1 hmarked)
  rw [Bitboard.contains_union, hnone, Bool.or_false]

/-- Barred points in a game of accepted moves. A mark comes only from a removal while men are being
placed, and no man goes on it; it stays until a move after which nothing is left to place and
nothing owed, but for the removal of a side that this move leaves blocked; and from then on no point
is marked and the points in use are those of the men. -/
theorem playedBy_bars (h : PlayedBy (fun _ => True) rule pos) :
    (∀ m next, pos.apply m = .ok next → pos.Bars m next) ∧
    (∀ ms last p, pos.applyAll? ms = some last → pos.contentAt p = .marked →
      last.contentAt p ≠ .marked → ∃ past rest mid, ms = past ++ rest ∧ past ≠ [] ∧
        pos.applyAll? past = some mid ∧ mid.PlacingOver) ∧
    (pos.state.phase ≠ .finished → pos.HandsEmpty →
      (pos.state.phase = .moving ∨ ∀ c, pos.state.owed.get c = 0) →
        pos.Unmarked ∧ pos.occupied = pos.state.men.white.union pos.state.men.black) := by
  refine ⟨fun m next => h.bars, fun ms last p => h.placingOver_of_lifted, ?_⟩
  intro hgoes hhands hover
  have hunmarked := h.unmarked_of_handsEmpty hgoes hhands hover
  exact ⟨hunmarked, h.sound.toConsistent.occupied_of_unmarked hunmarked⟩

/-- Five men a side; a man taken while men are placed bars its point, and a blocked side takes a man
to free itself. -/
def barring : Rule where
  pieceCount := 5
  mayFly := false
  millAction := .markPoint
  stalemateAction := .removeAndMove

/-- White closes a mill with its last man and takes one that Black has just placed. -/
def lastMill : List Move :=
  [.place 24, .place 30, .place 31, .place 28, .place 26, .place 16, .place 27, .place 10,
    .place 25, .remove 10]

theorem lastMill_spec : ∃ pos next, PlayedBy (fun _ => True) barring pos ∧
    pos.apply (.place 18) = .ok next ∧ pos.contentAt 10 = .marked ∧
      pos.state.inHand.get .black = 1 ∧ next.contentAt 10 = .empty ∧
        next.state.phase = .moving ∧ next.HandsEmpty ∧ next.state.owed.get .white = 1 := by
  have hspec : ((ofVariant (.ofRule barring)).applyAll? lastMill).any (fun pos =>
      ((pos.apply (.place 18)).toOption).any fun next =>
        decide (pos.contentAt 10 = .marked ∧ pos.state.inHand.get .black = 1 ∧
          next.contentAt 10 = .empty ∧ next.state.phase = .moving ∧
            (next.state.inHand.get .white = 0 ∧ next.state.inHand.get .black = 0) ∧
              next.state.owed.get .white = 1)) = true := by
    decide +kernel
  obtain ⟨pos, hpos, hany⟩ := (Option.any_eq_true _ _).1 hspec
  obtain ⟨next, hnext, hfacts⟩ := (Option.any_eq_true _ _).1 hany
  obtain ⟨hmarked, hhand, hempty, hmoving, ⟨hwhite, hblack⟩, howed⟩ := of_decide_eq_true hfacts
  have hhands : next.HandsEmpty := by
    intro c
    cases c with
    | white => exact hwhite
    | black => exact hblack
  exact ⟨pos, next, (PlayedBy.begin rfl).applyAll (fun _ _ => trivial) hpos,
    toOption_eq_some_iff.1 hnext, hmarked, hhand, hempty, hmoving, hhands, howed⟩

/-- Black places its last man and leaves White blocked, which is to slide now: the mark that White's
mill has left is lifted, and White owes a removal. -/
theorem playedBy_bars_lastMill : ∃ pos next, PlayedBy (fun _ => True) barring pos ∧
    pos.apply (.place 18) = .ok next ∧ pos.contentAt 10 = .marked ∧ next.PlacingOver ∧
      next.Unmarked := by
  obtain ⟨pos, next, hplayed, hnext, hmarked, -, hempty, hmoving, hhands, -⟩ := lastMill_spec
  have hover : next.PlacingOver := by
    refine ((playedBy_bars hplayed).1 _ _ hnext).goes 10 hmarked ?_
    rw [hempty]
    decide
  have hgoes : next.state.phase ≠ .finished := by
    rw [hmoving]
    decide
  exact ⟨pos, next, hplayed, hnext, hmarked, hover,
    ((playedBy_bars (hplayed.move trivial hnext)).2.2 hgoes hhands (Or.inl hmoving)).1⟩

/-- It is not so that a marked point stays marked while a hand is not empty or a removal is owed. -/
theorem not_forall_marks_stay :
    ¬ ∀ (rule : Rule) (pos next : Position) (m : Move) (p : Point),
      rule.millAction = .markPoint → PlayedBy (fun _ => True) rule pos → pos.apply m = .ok next →
      pos.contentAt p = .marked →
      ((∃ c, pos.state.inHand.get c ≠ 0) ∨ ∃ c, pos.state.owed.get c ≠ 0) →
      ((∃ c, next.state.inHand.get c ≠ 0) ∨ ∃ c, next.state.owed.get c ≠ 0) →
      next.contentAt p = .marked := by
  intro hall
  obtain ⟨pos, next, hplayed, hnext, hmarked, hhand, hempty, -, -, howed⟩ := lastMill_spec
  have hstays := hall barring pos next (.place 18) 10 rfl hplayed hnext hmarked
    (Or.inl ⟨.black, by rw [hhand]; decide⟩) (Or.inr ⟨.white, by rw [howed]; decide⟩)
  cases hempty.symm.trans hstays

end Morris.Position
