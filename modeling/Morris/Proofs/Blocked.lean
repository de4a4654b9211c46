import Morris.Proofs.Marks
import Morris.Proofs.Shortage

/-!
# Blocked sides and the list of slides

Whether a side is blocked is read off the counts of men and the points in use; the slides are listed
man by man along the order of the variant. `Position.playedBy_isBlocked_iff` says that the two agree
while men are slid: a side is blocked if and only if it has no slide. One direction holds of any
board (`Consistent.slides_of_isBlocked`). The other needs what play keeps: a side that slides has an
empty hand, so that it may fly if it is small enough, it has two men at least, and there is no mark
that takes up the last free point.
-/

set_option autoImplicit false

namespace Morris.Position

variable {pos next : Position} {c : Side} {admits : Move → Prop} {rule : Rule}

/-- A full board has no empty point. -/
theorem Consistent.not_empty_of_full (h : pos.Consistent) (hfull : 24 ≤ pos.totalOnBoard)
    {p : Point} (hp : Point.onBoard p = true) : pos.contentAt p ≠ .empty := by
  intro hempty
  have hcensus := h.census
  have hvacant := vacancies_pos_of_empty hp hempty
  omega

/-- A blocked side may not fly, unless the board is full. -/
theorem not_canFly_of_isBlocked (h : pos.isBlocked c = true) :
    24 ≤ pos.totalOnBoard ∨ pos.canFly c = false := by
  simp only [isBlocked] at h
  split_ifs at h with hfull hsmall
  · exact Or.inl hfull
  · rw [canFly, eq_false_of_ne_true hsmall]
    exact Or.inr rfl

/-- A blocked side has no slide. -/
theorem Consistent.slides_of_isBlocked (h : pos.Consistent)
    (hblocked : pos.isBlocked pos.state.side = true) : pos.slides = [] := by
  rw [List.eq_nil_iff_forall_not_mem]
  intro m hm
  obtain ⟨a, b, _, hb, hslide, _⟩ := of_mem_slides h hm
  rcases hslide.reach with hfly | hadjacent
  · rcases not_canFly_of_isBlocked hblocked with hfull | hnot
    · exact h.not_empty_of_full hfull hb hslide.free
    · rw [hnot] at hfly
      cases hfly
  · have hnear := Board.mem_neighbours (h.onBoard_of_man hslide.man) hadjacent
    exact h.not_empty_of_isBlocked hblocked hslide.man hnear hslide.free

/-- While men are slid neither side has too few. -/
theorem PlayedBy.unbeaten_of_moving (h : PlayedBy admits rule pos)
    (hmoving : pos.state.phase = .moving) (c : Side) : pos.isBeaten c = false := by
  rcases h.supplied with (hover | hunbeaten) | ⟨d, hdrawn, _⟩
  · cases hmoving.symm.trans hover
  · exact hunbeaten c
  · cases hmoving.symm.trans hdrawn.phase

/-- While men are slid, the side to move is blocked if and only if no slide is listed for it. The
rules left out bar points and let one side slide while the other still places: marks may then be
left between the men. -/
theorem playedBy_isBlocked_iff (h : PlayedBy admits rule pos)
    (hrule : ¬ (rule.millAction = .markPoint ∧ rule.mayMoveWhilePlacing = true))
    (hmoving : pos.state.phase = .moving) :
    pos.isBlocked pos.state.side = true ↔ pos.slides = [] := by
  constructor
  · exact h.sound.slides_of_isBlocked
  · intro hnone
    by_contra hfree
    have hhand := h.emptied hmoving
    have hmen := h.sound.two_le_onBoard (h.unbeaten_of_moving hmoving _) hhand
    exact slides_ne_nil h.sound.toConsistent hmoving (h.unmarked_of_moving hmoving hrule) hhand
      hmen (eq_false_of_ne_true hfree) hnone

/-- Four men a side; who cannot slide removes a man and moves on. -/
def hemming : Rule := { pieceCount := 4, stalemateAction := .removeAndMove }

/-- White's men stand in the corners of a ring, and Black has one man left to place. -/
def cornered : List Move :=
  [.place 9, .place 8, .place 11, .place 10, .place 13, .place 12, .place 15]

theorem cornered_spec :
    (∃ pos, PlayedBy Move.OnBoard hemming pos ∧ pos.state.phase = .moving ∧
      pos.isBlocked pos.state.side = true) ∧
    ∃ pos, PlayedBy Move.OnBoard hemming pos ∧ pos.state.phase = .moving ∧
      pos.state.action = .select ∧ pos.isBlocked pos.state.side = false := by
  have hplayed : ∀ {m : Move} {pos : Position}, m.OnBoard →
      (ofVariant (.ofRule hemming)).applyAll? (cornered ++ [m]) = some pos →
      PlayedBy Move.OnBoard hemming pos := by
    intro m pos hm hpos
    refine (PlayedBy.begin rfl).applyAll (fun m' hm' => ?_) hpos
    rcases List.mem_append.1 hm' with hin | hlast
    · exact (show ∀ m ∈ cornered, m.OnBoard by decide +kernel) m' hin
    · rw [List.mem_singleton.1 hlast]
      exact hm
  -- the last man is placed where it closes White in
  have hhemmed : ((ofVariant (.ofRule hemming)).applyAll? (cornered ++ [.place 14])).any
      (fun pos => decide (pos.state.phase = .moving ∧ pos.isBlocked pos.state.side = true)) =
        true := by
    decide +kernel
  -- or elsewhere, which leaves White a way out
  have hfree : ((ofVariant (.ofRule hemming)).applyAll? (cornered ++ [.place 24])).any
      (fun pos => decide (pos.state.phase = .moving ∧ pos.state.action = .select ∧
        pos.isBlocked pos.state.side = false)) = true := by
    decide +kernel
  obtain ⟨hemmed, hhemmed, hfacts⟩ := (Option.any_eq_true _ _).1 hhemmed
  obtain ⟨free, hfree, hfacts'⟩ := (Option.any_eq_true _ _).1 hfree
  exact ⟨⟨hemmed, hplayed (.place rfl) hhemmed, of_decide_eq_true hfacts⟩,
    ⟨free, hplayed (.place rfl) hfree, of_decide_eq_true hfacts'⟩⟩

/-- With Black's last man beside it White is hemmed in and has no slide; were that man put
elsewhere, White would have one. -/
theorem playedBy_isBlocked_iff_cornered :
    (∃ pos, PlayedBy Move.OnBoard hemming pos ∧ pos.state.phase = .moving ∧
      pos.isBlocked pos.state.side = true ∧ pos.slides = []) ∧
    ∃ pos, PlayedBy Move.OnBoard hemming pos ∧ pos.state.phase = .moving ∧
      pos.state.action = .select ∧ pos.isBlocked pos.state.side = false ∧ pos.slides ≠ [] := by
  have hrule : ¬ (hemming.millAction = .markPoint ∧ hemming.mayMoveWhilePlacing = true) := by
    decide
  obtain ⟨⟨hemmed, hplayed, hmoving, hblocked⟩, free, hplayed', hmoving', haction, hfree⟩ :=
    cornered_spec
  refine ⟨⟨hemmed, hplayed, hmoving, hblocked,
      (playedBy_isBlocked_iff hplayed hrule hmoving).1 hblocked⟩,
    free, hplayed', hmoving', haction, hfree, fun hnone => ?_⟩
  have hblocked' := (playedBy_isBlocked_iff hplayed' hrule hmoving').2 hnone
  rw [hfree] at hblocked'
  cases hblocked'

end Morris.Position
