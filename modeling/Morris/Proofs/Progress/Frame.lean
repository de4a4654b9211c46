import Morris.Proofs.Progress.Turn

/-!
# What the kinds of moves share

How men, marks and empty points are counted before and after a move, how placing ends, and how a
mill is answered by a removal on the board.
-/

set_option autoImplicit false

namespace Morris

theorem PerSide.eq_both {α : Type} {v : PerSide α} {a : α} (h : ∀ c, v.get c = a) :
    v = .both a := by
  obtain ⟨white, black⟩ := v
  rw [show white = a from h .white, show black = a from h .black]
  rfl

theorem PerSide.set_get {α : Type} (v : PerSide α) (c : Side) : v.set c (v.get c) = v := by
  cases c <;> rfl

namespace Position

variable {pos next : Position} {c : Side}

/-! ## Counting points -/

/-- Where no mark comes up, men and empty points together get no fewer. -/
theorem Consistent.vacancies_le (h : pos.Consistent) (hnext : next.Consistent)
    (hmarks : ∀ q, next.contentAt q = .marked → pos.contentAt q = .marked) :
    pos.totalOnBoard + pos.vacancies ≤ next.totalOnBoard + next.vacancies := by
  have hcensus := h.census
  have hcensus' := hnext.census
  have hle : Point.all.countP (fun q => next.contentAt q == .marked) ≤
      Point.all.countP (fun q => pos.contentAt q == .marked) := by
    apply List.countP_mono_left
    intro q _ hq
    exact beq_iff_eq.2 (hmarks q (beq_iff_eq.1 hq))
  omega

/-- A board full of men has no marks. -/
theorem Consistent.unmarked_of_full (h : pos.Consistent) (hfull : 24 ≤ pos.totalOnBoard) :
    pos.Unmarked := by
  intro q hq
  have hcensus := h.census
  have hlive : Point.onBoard q = true := by
    apply h.agrees.onBoard_of_content
    show pos.contentAt q ≠ .empty
    rw [hq]
    decide
  have hpos : 0 < Point.all.countP fun q => pos.contentAt q == .marked :=
    List.countP_pos_iff.2 ⟨q, (Point.mem_all q).2 hlive, by simpa using hq⟩
  omega

/-- No side has more men than it started with, which are twelve at most. -/
theorem Consistent.onBoard_le (h : pos.Consistent) (c : Side) :
    pos.state.onBoard.get c + pos.state.inHand.get c ≤ pos.rule.pieceCount ∧
      pos.rule.pieceCount ≤ 12 :=
  ⟨h.counted.within c, ((Rule.valid_iff pos.rule).1 h.valid).1.2⟩

/-! ## The end of placing -/

theorem Consistent.giveTurn (h : pos.Consistent) (c : Side) : (pos.giveTurn c).Consistent :=
  h.of_sameMen (sameMen_giveTurn pos c) (keyExact_giveTurn h.key.follows c)

/-- The end of placing keeps a position consistent. -/
theorem Consistent.endPlacing (h : pos.Consistent) {ended : Position}
    (hended : pos.endPlacing? = some ended) : ended.Consistent := by
  obtain ⟨hdone, hend⟩ := placingEnd_of_endPlacing hended
  obtain ⟨hlifts, hmarks⟩ := (hend.lifts_settle h.agrees hdone).1
  exact h.of_aftermath (hlifts.aftermath hmarks) (hend.keyExact h.agrees h.key)

theorem rule_of_endPlacing (h : pos.state.Agrees) {ended : Position}
    (hended : pos.endPlacing? = some ended) : ended.rule = pos.rule :=
  ((placingEnd_of_endPlacing hended).2.lifts h).rule

theorem Consistent.endPlacingOrPass (h : pos.Consistent) : pos.endPlacingOrPass.Consistent := by
  simp only [Position.endPlacingOrPass]
  cases hended : pos.endPlacing? with
  | some ended => exact h.endPlacing hended
  | none => exact h.giveTurn _

/-- With or without the end of placing, a turn that passes at most lifts marks. -/
theorem endPlacingOrPass_lifts (h : pos.state.Agrees) : pos.Lifts pos.endPlacingOrPass := by
  rcases endPlacingOrPass_cases pos with ⟨_, hend⟩ | hpass
  · exact hend.lifts h
  · rw [hpass]
    exact (sameMen_giveTurn pos _).lifts

/-! ## Removals that are owed -/

/-- Under a lively rule a mill earns one removal. -/
theorem removalsEarned_eq_one (h : pos.rule.Lively) (n : Nat) :
    removalsEarned pos.rule n = 1 := by
  simp [removalsEarned, h.1]

/-- A mill is answered by one removal on the board. -/
theorem Moved.earned_oweRemovals (h : pos.Moved)
    (hfoe : pos.state.onBoard.get pos.state.side.other ≠ 0)
    (hfull : pos.isFullBoardRemoval = false) : (pos.oweRemovals 1).Earned where
  toGround := h.toGround.of_sameMen ⟨rfl, rfl, rfl⟩
  owed := by
    show pos.state.owed.set pos.state.side 1 = _
    rw [h.owed]
    rfl
  takesOwn := h.takesOwn
  frees := h.frees
  men c := by
    rcases Side.eq_or_eq_other c pos.state.side with rfl | rfl
    · exact h.man
    · exact hfoe
  phase := h.phase
  action := rfl
  notFull := hfull

/-- A side that has just earned a removal can make it. -/
theorem Earned.live (h : pos.Earned) (hunbeaten : ∀ c, pos.isBeaten c = false) : pos.Live :=
  ⟨hunbeaten, .earned h, fun haction => by rw [h.action] at haction; cases haction⟩

theorem Arrears.live (h : pos.Arrears) (hunbeaten : ∀ c, pos.isBeaten c = false) : pos.Live :=
  ⟨hunbeaten, .arrears h, fun haction => by rw [h.action] at haction; cases haction⟩

theorem not_isFullBoardRemoval_of_direct (h : pos.rule.Direct) :
    pos.isFullBoardRemoval = false := by
  by_cases hcount : pos.rule.pieceCount = 12
  · rcases h.2.2.2 hcount with hfull | hfull <;> simp [isFullBoardRemoval, hfull]
  · simp [isFullBoardRemoval, hcount]

end Position

end Morris
