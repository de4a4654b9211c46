import Morris.Proofs.Accepted
import Morris.Proofs.Effect

/-!
# Counting quiet moves

The count of quiet moves is changed by the movement of the men alone: a placement and a removal set
it to zero, a slide adds one, and the consequences of a move leave it as it is. `Position.Stirs`
puts this beside what the board shows of a move, which is how many men there are of each side and
whether any of them stands elsewhere. A man that is only picked up stirs nothing.
-/

set_option autoImplicit false

namespace Morris.Position

variable {pos rest next : Position} {p : Point}

/-! ## What follows a move of the men -/

theorem Raid.quiet (h : rest.Raid next) (hagrees : rest.state.Agrees) :
    next.state.quiet = rest.state.quiet := by
  cases h with
  | owed _ => rfl
  | ended hdone hend => exact (hend.lifts_settle hagrees hdone).2.1.quiet
  | passed => exact ((sameMen_giveTurn rest _).trans (sameMen_settle _)).quiet
  | kept => exact (sameMen_settle rest).quiet

theorem AfterDrop.quiet (h : pos.AfterDrop next) (hagrees : pos.state.Agrees) :
    next.state.quiet = pos.state.quiet := by
  cases h with
  | calm => exact (lifts_endPlacingOrPass hagrees).1.quiet
  | full => exact (sameMen_resolveFullBoard pos).quiet
  | raid n => exact (raid_takeFromHand pos n).quiet (agrees_raidHand hagrees n)
  | owed _ => rfl

/-- No quiet move has been made after a placement. -/
theorem quiet_placeMan (h : pos.Consistent) (hp : Point.onBoard p = true)
    (hfree : pos.contentAt p = .empty) (hhand : pos.state.inHand.get pos.state.side ≠ 0) :
    (pos.placeMan p).2.state.quiet = 0 := by
  obtain ⟨n, hn⟩ := placeMan_snd pos p
  have hclosed := (h.drop hp hfree hhand).scoreMills p pos.state.side
  rw [hn, (afterDrop_cases _ n).quiet hclosed.agrees,
    (sameTurn_scoreMills (pos.drop p) p pos.state.side).toSameMen.quiet]
  rfl

/-- A slide is a quiet move. -/
theorem quiet_slideMan (pos : Position) (a b : Point) :
    (pos.slideMan a b).2.state.quiet = pos.state.quiet + 1 := by
  obtain ⟨opened, n, hn⟩ := slideMan_snd pos a b
  rw [hn, (afterShift_cases _ a b opened n).sameMen.quiet,
    (sameTurn_scoreMills _ b _).toSameMen.quiet]
  rfl

/-- No quiet move has been made after a removal. -/
theorem quiet_remove (h : pos.Consistent) (hnext : pos.remove p = .ok next) :
    next.state.quiet = 0 := by
  obtain ⟨hremovable, rfl⟩ := remove_ok_iff.1 hnext
  have htaken := h.takeMan hremovable.man
  have hafter := afterTaking_cases (pos.takeMan p pos.removalTarget) pos.removalTarget
  rw [(hafter.lifts htaken.agrees).1.quiet]
  exact (takeMan_frame pos p pos.removalTarget).quiet

/-! ## Moves -/

theorem Sound.quiet_place (h : pos.Sound) (hp : Point.onBoard p = true)
    (hother : pos.contentAt p ≠ pos.state.side.man) (hnext : pos.apply (.place p) = .ok next) :
    next.state.quiet = 0 := by
  obtain ⟨⟨n, played⟩, hput, rfl⟩ := (apply_place_iff hp).1 hnext
  have hrelease : pos.release.Sound := h.of_sameTurn (sameTurn_release pos)
  have hputting : pos.release.Putting p played := hrelease.put_cases hput
  cases hputting with
  | placed hphase _ hfree hhand =>
      have hbegun := hrelease.start
      have hstart := start_of_placing (hphase.imp_right And.left)
      rw [hstart] at hbegun ⊢
      exact quiet_placeMan hbegun.toConsistent hp hfree hhand
  | picked _ _ _ hman => exact absurd hman hother
  | slid _ _ _ hselected _ => cases hselected

theorem Sound.quiet_slide (h : pos.Sound) {a b : Point} (ha : Point.onBoard a = true)
    (hb : Point.onBoard b = true) (hother : pos.contentAt b ≠ pos.state.side.man)
    (hnext : pos.apply (.slide a b) = .ok next) : next.state.quiet = pos.state.quiet + 1 := by
  obtain ⟨⟨n, played⟩, hslide, rfl⟩ := (apply_slide_iff ha hb).1 hnext
  obtain ⟨picked, hselect, hput⟩ := bind_eq_ok_iff.1 hslide
  have hputting := (h.select hselect).put_cases hput
  have hidle := not_placed_of_select hselect
  obtain ⟨_, _, _, _, rfl⟩ := select_ok_iff.1 hselect
  cases hputting with
  | placed hplace _ _ _ => exact absurd hplace hidle
  | picked _ _ _ hman => exact absurd hman hother
  | slid _ _ _ hselected _ => exact quiet_slideMan (pos.pick a) _ b

/-- What an accepted move does to the men on the board and to the count of quiet moves. -/
inductive Stirs (pos : Position) (m : Move) (next : Position) : Prop
  /-- A man has come to the board or has left it. -/
  | counted : m.kind ≠ .slide →
      m.kind = .remove ∨ pos.contentAt m.target ≠ pos.state.side.man →
      next.state.onBoard ≠ pos.state.onBoard → next.state.quiet = 0 → Stirs pos m next
  /-- A man has gone from one point to another. -/
  | slid : m.kind = .slide → pos.contentAt m.target ≠ pos.state.side.man →
      next.state.onBoard = pos.state.onBoard → next.state.board ≠ pos.state.board →
      next.state.quiet = pos.state.quiet + 1 → Stirs pos m next
  /-- A man has been picked up, and all men stand where they stood. -/
  | held : m.kind ≠ .remove → pos.contentAt m.target = pos.state.side.man →
      next.state.toLayout = pos.state.toLayout → next.state.quiet = pos.state.quiet →
      Stirs pos m next

theorem contentAt_of_board (h : next.state.board = pos.state.board) (q : Point) :
    next.contentAt q = pos.contentAt q := by
  simp only [contentAt, Layout.content, h]

/-- A slide shows on the board. -/
theorem Slid.board_ne {a b : Point} (h : pos.Slid next a b) :
    next.state.board ≠ pos.state.board := by
  intro hsame
  have hleft := contentAt_of_board hsame a
  rw [h.left, h.man] at hleft
  exact Side.man_ne_empty _ hleft.symm

theorem Held.stirs {p : Point} {m : Move} (h : pos.Held next p m) (hkind : m.kind ≠ .remove)
    (hown : pos.contentAt m.target = pos.state.side.man) : pos.Stirs m next := by
  rw [Held] at h
  subst h
  exact .held hkind hown rfl rfl

theorem Sound.stirs_place (h : pos.Sound) {p : Point} (hp : Point.onBoard p = true)
    (hnext : pos.apply (.place p) = .ok next) : pos.Stirs (.place p) next := by
  obtain ⟨hkind, htarget⟩ := Move.place_spec hp
  obtain ⟨hplaced, hheld⟩ := effect_place h hp hnext
  by_cases hown : pos.contentAt p = pos.state.side.man
  · exact (hheld hown).2.2.stirs (by rw [hkind]; decide) (by rw [htarget]; exact hown)
  · refine .counted (by rw [hkind]; decide) (Or.inr (by rw [htarget]; exact hown)) ?_
      (h.quiet_place hp hown hnext)
    intro hsame
    have hcount := congrArg (fun v => v.get pos.state.side)
      ((hplaced hown).onBoard.symm.trans hsame)
    rw [PerSide.get_update, if_pos rfl] at hcount
    omega

theorem Sound.stirs_slide (h : pos.Sound) {a b : Point} (ha : Point.onBoard a = true)
    (hb : Point.onBoard b = true) (hne : a ≠ b) (hnext : pos.apply (.slide a b) = .ok next) :
    pos.Stirs (.slide a b) next := by
  obtain ⟨hkind, _, htarget⟩ := Move.slide_spec ha hb
  obtain ⟨hslid, hheld⟩ := effect_slide h ha hb hne hnext
  by_cases hown : pos.contentAt b = pos.state.side.man
  · exact (hheld hown).2.2.stirs (by rw [hkind]; decide) (by rw [htarget]; exact hown)
  · exact .slid hkind (by rw [htarget]; exact hown) (hslid hown).onBoard (hslid hown).board_ne
      (h.quiet_slide ha hb hown hnext)

theorem Sound.stirs_remove (h : pos.Sound) {p : Point} (hp : Point.onBoard p = true)
    (hnext : pos.apply (.remove p) = .ok next) : pos.Stirs (.remove p) next := by
  obtain ⟨hkind, _⟩ := Move.remove_spec hp
  have hremoved := effect_remove h hp hnext
  obtain ⟨removed, hremove, rfl⟩ := (apply_remove_iff hp).1 hnext
  have hquiet : removed.state.quiet = 0 := quiet_remove h.toConsistent hremove
  refine .counted (by rw [hkind]; decide) (Or.inl hkind) ?_ hquiet
  intro hsame
  have hcount := hremoved.count
  rw [hsame] at hcount
  omega

/-- Every accepted move of a sound position puts a man on the board or takes one off, slides one, or
only picks one up. -/
theorem Sound.stirs_apply (h : pos.Sound) {m : Move} (hm : m.OnBoard)
    (hnext : pos.apply m = .ok next) : pos.Stirs m next := by
  cases hm with
  | place hp => exact h.stirs_place hp hnext
  | slide ha hb hne => exact h.stirs_slide ha hb hne hnext
  | remove hp => exact h.stirs_remove hp hnext

end Morris.Position
