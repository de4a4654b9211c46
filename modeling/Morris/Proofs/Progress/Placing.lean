import Morris.Proofs.Progress.Frame

/-!
# Placements keep play going

A placement is followed by a full board, by a mill that takes a man from the other side's hand or is
answered by a removal on the board, or by the turn of the other side, and placing may end. Each of
these leaves a turn that can be taken (`Due.over_or_live_placeMan`).
-/

set_option autoImplicit false

namespace Morris.Position

variable {pos next : Position} {c : Side}

/-! ## Placements -/

/-- A line that a placement completes was filled by two other men of its side. -/
theorem exists_partners_of_scoreMills (p : Point) (hp : pos.contentAt p = c.man)
    (hn : (pos.scoreMills p c).1 ≠ 0) :
    ∃ pair ∈ Board.partners pos.rule.hasDiagonals p, (pos.men c).covers pair = true := by
  simp only [scoreMills] at hn
  split at hn
  · -- no line is scored unless one is full
    obtain ⟨pair, hpair⟩ : ∃ pair, pair ∈ (Board.partners pos.rule.hasDiagonals p).filter
        fun pair => (pos.men c).covers pair := by
      apply List.exists_mem_of_ne_nil
      intro hnil
      rw [hnil] at hn
      exact hn rfl
    rw [List.mem_filter] at hpair
    exact ⟨pair, hpair⟩
  · have hside : pos.sideAt? p = some c := by
      rw [sideAt?, colourAt, hp]
      cases c <;> rfl
    rw [millsAt, hside] at hn
    exact List.countP_pos_iff.1 (Nat.pos_of_ne_zero hn)

/-- A side that has filled a line has a mill. -/
theorem Consistent.millCount_ne_zero (h : pos.Consistent) {p : Point}
    (hp : pos.contentAt p = c.man) {pair : Bitboard}
    (hpair : pair ∈ Board.partners pos.rule.hasDiagonals p)
    (hcovers : (pos.men c).covers pair = true) : pos.millCount c ≠ 0 := by
  have hlive := h.onBoard_of_man hp
  have hlt := Point.lt_of_onBoard hlive
  obtain ⟨_, hline, _⟩ := Board.partners_spec hlive hpair
  obtain ⟨_, hwithin⟩ := Bitboard.covers_iff.1 hcovers
  -- the line is the pair with the point itself
  have hinsert : ∀ q, (pair.insert p).contains q = (pair.contains q || decide (q = p)) :=
    Bitboard.contains_insert hlt pair
  have hin : (pair.insert p).contains p = true := by
    rw [hinsert]
    simp
  rw [Nat.ne_zero_iff_zero_lt, millCount, List.countP_pos_iff]
  refine ⟨pair.insert p, hline, Bitboard.covers_iff.2 ⟨?_, fun q hq => ?_⟩⟩
  · apply eq_false_of_ne_true
    intro hempty
    rw [Bitboard.isEmpty_iff.1 hempty p] at hin
    cases hin
  · rw [hinsert, Bool.or_eq_true, decide_eq_true_iff] at hq
    rcases hq with hq | rfl
    · exact hwithin q hq
    · exact (h.agrees.men c q).2 hp

theorem InStep.drop (h : pos.InStep pos.state.side)
    (hhand : pos.state.inHand.get pos.state.side ≠ 0) (p : Point) :
    (pos.drop p).InStep pos.state.side.other := by
  have hstep := h.resolve_left fun hempty => hhand (hempty _)
  right
  show (pos.state.inHand.update pos.state.side (· - 1)).black =
    (pos.state.inHand.update pos.state.side (· - 1)).white + _
  revert hstep hhand
  cases pos.state.side <;> simp [PerSide.update, PerSide.set, PerSide.get, Side.other] <;> omega

/-- A man that comes out of the hand stays a man of its side. -/
theorem isBeaten_drop (hhand : pos.state.inHand.get pos.state.side ≠ 0) (p : Point) (c : Side) :
    (pos.drop p).isBeaten c = pos.isBeaten c := by
  have hsum : (pos.drop p).state.onBoard.get c + (pos.drop p).state.inHand.get c =
      pos.state.onBoard.get c + pos.state.inHand.get c := by
    show (pos.state.onBoard.update pos.state.side (· + 1)).get c +
      (pos.state.inHand.update pos.state.side (· - 1)).get c = _
    rw [PerSide.get_update, PerSide.get_update]
    by_cases hc : c = pos.state.side
    · subst hc
      simp only [if_true]
      omega
    · simp only [if_neg hc]
  rw [isBeaten, isBeaten, hsum]
  rfl

/-- What a placement of the side to move leaves. -/
theorem moved_drop (h : pos.Consistent) (hground : pos.Ground pos.state.side) (hclear : pos.Clear)
    (hphase : pos.state.phase = .placing) (hhand : pos.state.inHand.get pos.state.side ≠ 0)
    {p : Point} (hp : Point.onBoard p = true) (hempty : pos.contentAt p = .empty) :
    (pos.drop p).Moved := by
  have hcontent := contentAt_drop pos hp
  have hmarks : ∀ q, (pos.drop p).contentAt q = .marked → pos.contentAt q = .marked := by
    intro q hq
    rw [hcontent] at hq
    split at hq
    · exact absurd hq (Side.man_ne_marked _)
    · exact hq
  have hvacancies := h.vacancies_le (h.drop hp hempty hhand) hmarks
  have hman : (pos.drop p).state.onBoard.get pos.state.side ≠ 0 := by
    show (pos.state.onBoard.update pos.state.side (· + 1)).get pos.state.side ≠ 0
    rw [PerSide.get_update, if_pos rfl]
    exact Nat.succ_ne_zero _
  have htotal : (pos.drop p).totalOnBoard = pos.totalOnBoard + 1 := by
    show (pos.state.onBoard.update pos.state.side (· + 1)).white +
      (pos.state.onBoard.update pos.state.side (· + 1)).black = _
    rw [totalOnBoard]
    cases pos.state.side <;> simp [PerSide.update, PerSide.set, PerSide.get] <;> omega
  have hhands : (pos.drop p).state.inHand.white + (pos.drop p).state.inHand.black + 1 =
      pos.state.inHand.white + pos.state.inHand.black := by
    show (pos.state.inHand.update pos.state.side (· - 1)).white +
      (pos.state.inHand.update pos.state.side (· - 1)).black + 1 = _
    revert hhand
    cases pos.state.side <;> simp [PerSide.update, PerSide.set, PerSide.get] <;> omega
  -- the placement uses up one man in hand and at most one empty point
  have hroom := hground.room
  refine ⟨.of_man hman (by omega) (fun halternates => (hground.inStep halternates).drop hhand p)
    fun hmark q hq => hground.marks hmark q (hmarks q hq),
    ⟨hclear.owed, hclear.takesOwn, hclear.frees⟩, hman, Or.inl hphase⟩

/-- A full board ends the game or is answered by removals. -/
theorem over_or_live_resolveFullBoard (h : pos.Consistent) (hclear : pos.Clear)
    (hunbeaten : ∀ c, pos.isBeaten c = false) (hfull : 24 ≤ pos.totalOnBoard) :
    pos.resolveFullBoard.OverOrLive := by
  -- no rule has more than twelve men a side, so a full board leaves nobody a man to place
  have hhands : pos.HandsEmpty := by
    intro c
    have hwhite := h.onBoard_le .white
    have hblack := h.onBoard_le .black
    simp only [totalOnBoard] at hfull
    cases c <;> simp only [PerSide.get] at hwhite hblack ⊢ <;> omega
  -- the removals are owed after placing, whoever begins with them
  have harrears : ∀ (q : Position) (c : Side), pos.SameMen q → q.state.owed.get c ≠ 0 →
      q.state.takesOwn = .both false → q.state.freesMover = false → (q.giveTurn c).OverOrLive := by
    intro q c hsame howes htakes hfrees
    have hhands' : q.HandsEmpty := by
      intro d
      rw [hsame.layout]
      exact hhands d
    have hturn : (q.giveTurn c).Arrears := by
      refine arrears_giveTurn hhands' howes (fun d _ => ?_) hfrees
        (hsame.unmarked (h.unmarked_of_full hfull))
      rw [htakes, PerSide.get_both]
    exact Or.inr (hturn.live fun d => (hsame.isBeaten d).trans (hunbeaten d))
  simp only [resolveFullBoard]
  split
  · exact Or.inl rfl
  · exact harrears _ _ ⟨rfl, rfl, rfl⟩ ((PerSide.get_both 1 _).trans_ne Nat.one_ne_zero)
      hclear.takesOwn hclear.frees
  · exact harrears _ _ ⟨rfl, rfl, rfl⟩ ((PerSide.get_both 1 _).trans_ne Nat.one_ne_zero)
      hclear.takesOwn hclear.frees
  · exact harrears _ _ ⟨rfl, rfl, rfl⟩ ((PerSide.get_set_self _ _ 1).trans_ne Nat.one_ne_zero)
      hclear.takesOwn hclear.frees
  · exact Or.inl rfl

/-- An empty hand leaves all removals to be made on the board. -/
theorem takeFromHand_of_empty (hhand : pos.state.inHand.get pos.state.side.other = 0) {n : Nat}
    (hn : n ≠ 0) : pos.takeFromHand n = pos.oweRemovals n := by
  have hset : pos.state.inHand.set pos.state.side.other (pos.state.inHand.get pos.state.side.other -
      min n (pos.state.inHand.get pos.state.side.other)) = pos.state.inHand := by
    rw [hhand, Nat.zero_sub, ← hhand, PerSide.set_get]
  have howed : n - min n (pos.state.inHand.get pos.state.side.other) = n := by
    rw [hhand, Nat.min_zero, Nat.sub_zero]
  have hraid : pos.raidHand n =
      (pos.mapState fun s => { s with owed := s.owed.set s.side n }).refreshKey := by
    simp only [raidHand, mapState]
    rw [hset, howed]
  have hshort : pos.state.inHand.get pos.state.side.other < n := by
    rw [hhand]
    exact Nat.pos_of_ne_zero hn
  rw [takeFromHand, if_pos hshort, hraid]
  rfl

theorem Consistent.raidHand (h : pos.Consistent) (n : Nat) : (pos.raidHand n).Consistent :=
  h.of_aftermath (SameMen.refl (pos.raidHand n)).aftermath.of_raidHand (keyExact_raidHand h.key n)

/-- The hand of the other side after one man has been taken from it. -/
theorem raidHand_one (hhand : pos.state.inHand.get pos.state.side.other ≠ 0) (hclear : pos.Clear) :
    (pos.raidHand 1).Clear ∧ (pos.raidHand 1).state.inHand =
      pos.state.inHand.update pos.state.side.other (· - 1) := by
  have htaken : min 1 (pos.state.inHand.get pos.state.side.other) = 1 := by omega
  refine ⟨⟨?_, hclear.takesOwn, hclear.frees⟩, ?_⟩
  · show pos.state.owed.set pos.state.side (1 - min 1 _) = _
    rw [htaken, hclear.owed]
    cases pos.state.side <;> rfl
  · show pos.state.inHand.set _ (_ - min 1 _) = _
    rw [htaken]
    rfl

theorem InStep.raidHand (h : pos.InStep pos.state.side.other)
    (hhand : pos.state.inHand.get pos.state.side.other ≠ 0) (hclear : pos.Clear) :
    (pos.raidHand 1).InStep pos.state.side := by
  have hstep := h.resolve_left fun hempty => hhand (hempty _)
  right
  rw [(raidHand_one hhand hclear).2]
  revert hstep hhand
  cases pos.state.side <;> simp [PerSide.update, PerSide.set, PerSide.get, Side.other] <;> omega

/-- After a raid on a hand placing ends, or the turn passes or stays as the rule says. -/
theorem over_or_live_of_raided (h : pos.Consistent) (hrule : pos.rule.Lively) (hclear : pos.Clear)
    (hphase : pos.state.phase = .placing) (haction : pos.state.action = .place)
    (hmen : pos.totalOnBoard < 24) (hfaces : ∀ c, pos.state.onBoard.get c ≠ 0)
    (hroom : pos.state.inHand.white + pos.state.inHand.black ≤ pos.vacancies)
    (hunmarked : pos.Unmarked) (hstep : pos.rule.Alternates → pos.InStep pos.state.side)
    (hraids : pos.rule.millAction = .takeFromHandAndPass ∨
      pos.rule.millAction = .takeFromHandAndMove)
    (hended : ∀ ended, pos.endPlacing? = some ended → next = ended.settle)
    (hgoes : pos.endPlacing? = none → next =
      if pos.rule.millAction == .takeFromHandAndPass then pos.passTurn.settle else pos.settle) :
    next.OverOrLive := by
  cases hplacing : pos.endPlacing? with
  | some ended =>
      rw [hended ended hplacing]
      have hopen := open_of_endPlacing h hclear (fun _ => hunmarked) (fun _ => hmen)
        (fun _ => hfaces) hplacing
      exact hopen.settle (h.endPlacing hplacing) ((rule_of_endPlacing h.agrees hplacing) ▸ hrule)
  | none =>
      rw [hgoes hplacing]
      rcases hraids with hpass | hmove
      · have hmoved : pos.Moved := by
          refine ⟨.of_man (hfaces _) hroom (fun halternates => ?_) fun _ => hunmarked, hclear,
            hfaces _, Or.inl hphase⟩
          exact absurd hpass halternates.2
        have hdue := hmoved.due_passTurn h hrule (Or.inl hmen) hplacing
        simpa [hpass] using (Open.due hdue).settle (h.giveTurn _) hrule
      · have halternates := hrule.alternates_of_takeFromHandAndMove hmove
        -- a side that keeps the turn has a man to place, or else placing would have ended
        have hhand : pos.state.inHand.get pos.state.side ≠ 0 := by
          intro hzero
          have hhands := (hstep halternates).handsEmpty hzero
          have hdone := isPlacingDone_of_handsEmpty hphase hhands hclear
          simp [endPlacing?, hdone, hmove, keepsTurnAfterPlacing, hrule.1,
            halternates.1] at hplacing
        have hdue : pos.Due :=
          ⟨⟨hroom, Or.inr (hfaces _), hstep, fun _ => hunmarked⟩, hclear, hmen,
            Or.inl ⟨hphase, haction, hhand⟩⟩
        simpa [hmove] using (Open.due hdue).settle h hrule

/-- A mill that takes a man from the other side's hand keeps play going. -/
theorem Moved.over_or_live_takeFromHand (hmoved : pos.Moved) (h : pos.Consistent)
    (hrule : pos.rule.Lively) (hphase : pos.state.phase = .placing)
    (haction : pos.state.action = .place) (hunbeaten : ∀ c, pos.isBeaten c = false)
    (hfoe : pos.state.onBoard.get pos.state.side.other ≠ 0)
    (hfull : pos.isFullBoardRemoval = false)
    (hraids : pos.rule.millAction = .takeFromHandAndPass ∨
      pos.rule.millAction = .takeFromHandAndMove) : (pos.takeFromHand 1).OverOrLive := by
  by_cases hhand : pos.state.inHand.get pos.state.side.other = 0
  · rw [takeFromHand_of_empty hhand Nat.one_ne_zero]
    exact Or.inr ((hmoved.earned_oweRemovals hfoe hfull).live hunbeaten)
  obtain ⟨hclear, hinHand⟩ := raidHand_one hhand hmoved.toClear
  have hshort : ¬ pos.state.inHand.get pos.state.side.other < 1 := by omega
  rw [takeFromHand, if_neg hshort]
  apply over_or_live_of_raided (h.raidHand 1) hrule hclear hphase haction
  case hmen =>
    -- the other side has lost a man before it has put all of them on the board
    have hown := h.onBoard_le pos.state.side
    have hother := h.onBoard_le pos.state.side.other
    show pos.state.onBoard.white + pos.state.onBoard.black < 24
    revert hhand hown hother
    cases pos.state.side <;> simp only [PerSide.get, Side.other] <;> omega
  case hfaces =>
    intro c
    rcases Side.eq_or_eq_other c pos.state.side with rfl | rfl
    · exact hmoved.man
    · exact hfoe
  case hroom =>
    have hroom := hmoved.room
    show _ ≤ pos.vacancies
    rw [hinHand]
    revert hhand
    cases pos.state.side <;> simp [PerSide.update, PerSide.set, PerSide.get, Side.other] <;> omega
  case hunmarked =>
    apply hmoved.marks
    rcases hraids with hmill | hmill <;> rw [hmill] <;> decide
  case hstep =>
    exact fun halternates => (hmoved.inStep halternates).raidHand hhand hmoved.toClear
  case hraids => exact hraids
  case hended =>
    intro ended hended
    rw [hended]
  case hgoes =>
    intro hgoes
    rw [hgoes]

/-- What follows a placement keeps play going. -/
theorem Moved.over_or_live_afterDrop (hmoved : pos.Moved) (h : pos.Consistent)
    (hrule : pos.rule.Lively) (hphase : pos.state.phase = .placing)
    (haction : pos.state.action = .place) (hunbeaten : ∀ c, pos.isBeaten c = false) {n : Nat}
    (hmill : n ≠ 0 → pos.state.onBoard.get pos.state.side.other ≠ 0 ∧
      pos.isFullBoardRemoval = false) : (pos.afterDrop n).OverOrLive := by
  -- three of the branches come to the turn passing
  have hpasses : (pos.totalOnBoard < 24 ∨
      (pos.state.phase = .placing ∧ pos.rule.millAction = .countMillsLater)) →
      pos.endPlacingOrPass.settle.OverOrLive := by
    intro hmen
    have hopen := hmoved.open_endPlacingOrPass h hrule hmen (h.men_of_handsEmpty hunbeaten)
    refine hopen.settle h.endPlacingOrPass ?_
    rw [(endPlacingOrPass_lifts h.agrees).rule]
    exact hrule
  simp only [afterDrop, removalsEarned_eq_one hrule]
  split
  · rename_i hcount
    exact hpasses (Or.inr ⟨hphase, by simpa using hcount⟩)
  · split
    · split
      · rename_i hfull
        rw [Bool.and_eq_true, decide_eq_true_iff] at hfull
        exact over_or_live_resolveFullBoard h hmoved.toClear hunbeaten hfull.2
      · rename_i hfull
        -- fewer than 24 men are on the board: not even twelve a side fill it
        refine hpasses (Or.inl ?_)
        have hwhite := h.onBoard_le .white
        have hblack := h.onBoard_le .black
        simp only [PerSide.get] at hwhite hblack
        simp only [Bool.and_eq_true, beq_iff_eq, decide_eq_true_iff, not_and] at hfull
        simp only [totalOnBoard] at hfull ⊢
        omega
    · rename_i hn
      obtain ⟨hfoe, hfull⟩ := hmill hn
      split
      · exact hmoved.over_or_live_takeFromHand h hrule hphase haction hunbeaten hfoe hfull
          (Or.inl ‹_›)
      · exact hmoved.over_or_live_takeFromHand h hrule hphase haction hunbeaten hfoe hfull
          (Or.inr ‹_›)
      · exact Or.inr ((hmoved.earned_oweRemovals hfoe hfull).live hunbeaten)

/-- A side that closes a mill by a placement faces a man, and under rules by which placing ends on a
full board this is not such an end: Black places the last man, and has a mill. -/
theorem Due.mill_drop (h : pos.Due) (hcons : pos.Consistent) (hrule : pos.rule.Lively)
    (hhand : pos.state.inHand.get pos.state.side ≠ 0) {p : Point} (hp : Point.onBoard p = true)
    (hempty : pos.contentAt p = .empty) {pair : Bitboard}
    (hpair : pair ∈ Board.partners pos.rule.hasDiagonals p)
    (hcovers : ((pos.drop p).men pos.state.side).covers pair = true) :
    pos.state.onBoard.get pos.state.side.other ≠ 0 ∧ (pos.drop p).isFullBoardRemoval = false := by
  have hdropped := hcons.drop hp hempty hhand
  have hcontent := contentAt_drop pos hp
  constructor
  · -- another man of the line was there before, so the side has met the other one
    obtain ⟨hnot, _, q, hq, _⟩ := Board.partners_spec hp hpair
    have hman := (hdropped.agrees.men _ q).1 ((Bitboard.covers_iff.1 hcovers).2 q hq)
    have hne : q ≠ p := by
      rintro rfl
      rw [hnot] at hq
      cases hq
    have hown : pos.contentAt q = pos.state.side.man := by
      have hsame := hcontent q
      rw [if_neg hne] at hsame
      rw [← hsame]
      exact hman
    exact h.met.resolve_left (hcons.onBoard_ne_zero hown)
  · rcases hrule.2 with ⟨halternates, _⟩ | hdirect
    · have hstep := (h.inStep halternates).resolve_left fun hhands => hhand (hhands _)
      have hman : (pos.drop p).contentAt p = pos.state.side.man := by rw [hcontent, if_pos rfl]
      have hmill := hdropped.millCount_ne_zero hman hpair hcovers
      have hinHand :
          (pos.drop p).state.inHand = pos.state.inHand.update pos.state.side (· - 1) := rfl
      -- where the sides place in turn, White does not place last
      cases hside : pos.state.side with
      | white =>
          have hblack : (pos.drop p).state.inHand.black ≠ 0 := by
            rw [hinHand]
            rw [hside] at hhand hstep ⊢
            simp [PerSide.update, PerSide.set, PerSide.get] at hhand hstep ⊢
            omega
          simp [isFullBoardRemoval, hblack]
      | black =>
          rw [hside] at hmill
          simp [isFullBoardRemoval, hmill]
    · exact not_isFullBoardRemoval_of_direct hdirect

/-- A placement keeps play going. -/
theorem Due.over_or_live_placeMan (h : pos.Due) (hcons : pos.Consistent) (hrule : pos.rule.Lively)
    (hphase : pos.state.phase = .placing) (hunbeaten : ∀ c, pos.isBeaten c = false) {p : Point}
    (hp : Point.onBoard p = true) (hempty : pos.contentAt p = .empty) :
    (pos.placeMan p).2.OverOrLive := by
  obtain ⟨haction, hhand⟩ := h.of_placing hphase
  have hsame := sameTurn_scoreMills (pos.drop p) p pos.state.side
  have hscored := (hcons.drop hp hempty hhand).scoreMills p pos.state.side
  have hmoved := (moved_drop hcons h.toGround h.toClear hphase hhand hp hempty).of_sameTurn hsame
  have hman := contentAt_drop_self pos hp
  show (((pos.drop p).scoreMills p pos.state.side).2.afterDrop
    ((pos.drop p).scoreMills p pos.state.side).1).OverOrLive
  apply hmoved.over_or_live_afterDrop hscored
  · rw [hsame.rule]
    exact hrule
  · rw [hsame.phase]
    exact hphase
  · rw [hsame.action]
    exact haction
  · intro c
    rw [hsame.isBeaten, isBeaten_drop hhand]
    exact hunbeaten c
  -- a mill is closed by men that were there, and so was the side that they face
  · intro hn
    obtain ⟨pair, hpair, hcovers⟩ := exists_partners_of_scoreMills p hman hn
    obtain ⟨hfoe, hfull⟩ := h.mill_drop hcons hrule hhand hp hempty hpair hcovers
    refine ⟨?_, hsame.isFullBoardRemoval.trans hfull⟩
    rw [hsame.side, hsame.layout]
    show (pos.state.onBoard.update pos.state.side (· + 1)).get pos.state.side.other ≠ 0
    rw [PerSide.get_update, if_neg (Side.other_ne _)]
    exact hfoe

end Morris.Position
