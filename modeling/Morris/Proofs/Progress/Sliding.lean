import Morris.Proofs.Progress.Frame

/-!
# Slides keep play going

A slide changes neither the number of men on the board nor the hands, so the other side can be given
the turn, or one removal is owed (`over_or_live_slideMan`).
-/

set_option autoImplicit false

namespace Morris.Position

variable {pos next : Position} {c : Side}

/-! ## Slides -/

theorem Unmarked.shift (hunmarked : pos.Unmarked) (h : pos.Consistent) {a b : Point}
    (ha : pos.contentAt a = pos.state.side.man) (hb : Point.onBoard b = true) :
    (pos.shift a b).Unmarked := by
  intro q
  rw [contentAt_shift pos (h.onBoard_of_man ha) hb]
  split
  · exact Side.man_ne_marked _
  · split
    · decide
    · exact hunmarked q

/-- What a slide of the side to move leaves. -/
theorem moved_shift (h : pos.Consistent) (hground : pos.Ground pos.state.side) (hclear : pos.Clear)
    (hunmarked : pos.Unmarked)
    (hphase : pos.state.phase = .placing ∨ pos.state.phase = .moving)
    (hhands : pos.rule.Alternates → pos.HandsEmpty) {a b : Point}
    (ha : pos.contentAt a = pos.state.side.man) (hb : Point.onBoard b = true)
    (hempty : pos.contentAt b = .empty) : (pos.shift a b).Moved := by
  have hmarks := hunmarked.shift h ha hb
  have hvacancies := h.vacancies_le (h.shift ha hb hempty) fun q hq => absurd hq (hmarks q)
  have hman : (pos.shift a b).state.onBoard.get (pos.shift a b).state.side ≠ 0 :=
    h.onBoard_ne_zero ha
  have hstep : pos.rule.Alternates → (pos.shift a b).HandsEmpty := hhands
  refine ⟨.of_man hman ?_ (fun halternates => (hstep halternates).inStep _) fun _ => hmarks,
    ⟨hclear.owed, hclear.takesOwn, hclear.frees⟩, hman,
    hphase.imp_right fun hmoving => ⟨hmoving, hmarks⟩⟩
  have hroom := hground.room
  have htotal : (pos.shift a b).totalOnBoard = pos.totalOnBoard := rfl
  show pos.state.inHand.white + pos.state.inHand.black ≤ _
  omega

theorem over_or_live_afterShift (h : pos.Consistent) (hrule : pos.rule.Lively) (hmoved : pos.Moved)
    (hmen : pos.totalOnBoard < 24) (hunbeaten : ∀ c, pos.isBeaten c = false)
    (hfoe : pos.state.onBoard.get pos.state.side.other ≠ 0)
    (hunmarked : pos.Unmarked) (hfull : pos.isFullBoardRemoval = false) (a b : Point)
    (opened n : Nat) : (pos.afterShift a b opened n).OverOrLive := by
  -- what the side remembers of its last mill is no part of the turn
  have hremember : ∀ slid, (pos.remember slid).Moved := fun slid =>
    hmoved.of_sameTurn (sameTurn_remember pos slid)
  simp only [afterShift, removalsEarned_eq_one hrule]
  split
  · have hdue : (pos.remember none).passTurn.Due :=
      due_giveTurn (hremember none).toGround (hremember none).toClear hmen fun _ => hunmarked
    have hkey : (pos.remember none).KeyExact := h.key
    have hcons : (pos.remember none).Consistent := h.of_sameMen (sameMen_remember pos none) hkey
    exact (Open.due hdue).settle (hcons.giveTurn _) hrule
  · split
    · exact Or.inr (((hremember _).earned_oweRemovals hfoe hfull).live hunbeaten)
    · exact Or.inr ((hmoved.earned_oweRemovals hfoe hfull).live hunbeaten)

/-- A slide keeps play going. -/
theorem over_or_live_slideMan (h : pos.Consistent) (hrule : pos.rule.Lively)
    (hground : pos.Ground pos.state.side) (hclear : pos.Clear) (hmen : pos.totalOnBoard < 24)
    (hunbeaten : ∀ c, pos.isBeaten c = false) (hunmarked : pos.Unmarked)
    (hphase : (pos.state.phase = .moving ∧ (pos.rule.Alternates → pos.HandsEmpty)) ∨
      (pos.state.phase = .placing ∧ pos.rule.mayMoveWhilePlacing = true)) {a b : Point}
    (ha : pos.contentAt a = pos.state.side.man) (hb : Point.onBoard b = true)
    (hempty : pos.contentAt b = .empty) : (pos.slideMan a b).2.OverOrLive := by
  obtain ⟨opened, n, hn⟩ := slideMan_snd pos a b
  rw [hn]
  have hsame := sameTurn_scoreMills (pos.shift a b) b pos.state.side
  have hscored := (h.shift ha hb hempty).scoreMills b pos.state.side
  generalize ((pos.shift a b).scoreMills b pos.state.side).2 = scored at hsame hscored ⊢
  have hscoredRule : scored.rule = pos.rule := hsame.rule
  -- under a rule that lets men slide while others are placed, the sides do not alternate
  have hdirect : pos.rule.mayMoveWhilePlacing = true → pos.rule.Direct := by
    intro hmay
    rcases hrule.2 with ⟨halternates, _⟩ | hdirect
    · rw [halternates.1] at hmay
      cases hmay
    · exact hdirect
  have hhands : pos.rule.Alternates → pos.HandsEmpty := by
    intro halternates
    rcases hphase with ⟨_, hhands⟩ | ⟨_, hmay⟩
    · exact hhands halternates
    · rw [halternates.1] at hmay
      cases hmay
  have hmoved : scored.Moved := by
    refine (moved_shift h hground hclear hunmarked ?_ hhands ha hb hempty).of_sameTurn hsame
    exact hphase.symm.imp And.left And.left
  have hfull : scored.isFullBoardRemoval = false := by
    rcases hphase with ⟨hmoving, _⟩ | ⟨_, hmay⟩
    · apply not_isFullBoardRemoval_of_moving
      rw [hsame.phase]
      exact hmoving
    · apply not_isFullBoardRemoval_of_direct
      rw [hscoredRule]
      exact hdirect hmay
  apply over_or_live_afterShift hscored (hscoredRule ▸ hrule) hmoved
  · rw [totalOnBoard, hsame.layout]
    exact hmen
  · intro c
    rw [hsame.isBeaten]
    exact hunbeaten c
  · rw [hsame.side, hsame.layout]
    exact hground.met.resolve_left (h.onBoard_ne_zero ha)
  · exact hsame.unmarked (hunmarked.shift h ha hb)
  · exact hfull

end Morris.Position
