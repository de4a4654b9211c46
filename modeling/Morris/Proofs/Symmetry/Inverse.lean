import Morris.Proofs.Symmetry.Game

/-!
# Symmetries undone

The inverse of a symmetry takes back what the symmetry does to a live point, to a set of live points
and to a move between them. It need not take back anything else, so a position comes back exactly if
all that it remembers of points, its `Memory`, is about live ones (`Memory.Live`,
`Position.Sound.image_inverse`). What stands on the board, the sets of points and the key need no
such care: the former come back point by point, and the latter are made anew from them.

Moves keep the memory live (`Position.live_apply`). What follows the movement of the men leaves it
alone (`Position.Unremarked`), and the movement itself writes only points that it has checked.
-/

set_option autoImplicit false

namespace Morris

/-- A move made of live points. Unlike one that is `Move.OnBoard`, it may end where it starts. -/
inductive Move.Built : Move → Prop
  | place {p : Point} : Point.onBoard p = true → Built (.place p)
  | slide {a b : Point} : Point.onBoard a = true → Point.onBoard b = true → Built (.slide a b)
  | remove {p : Point} : Point.onBoard p = true → Built (.remove p)

theorem Move.Built.onBoard {m : Move} (h : m.Built) (hproper : m.isProper = true) : m.OnBoard := by
  cases h with
  | place hp => exact .place hp
  | @slide a b ha hb =>
      obtain ⟨_, horigin, htarget⟩ := Move.slide_spec ha hb
      refine .slide ha hb ?_
      rintro rfl
      simp [isProper, horigin, htarget] at hproper
  | remove hp => exact .remove hp

namespace Symmetry

variable (t : Symmetry)

/-! ## Points, sets and moves -/

/-- The inverse takes the image of a live point back to the point. -/
theorem onPoint_inverse {p : Point} (hp : Point.onBoard p = true) :
    t.inverse.onPoint (t.onPoint p) = p := by
  simp only [Point.onBoard, decide_eq_true_eq] at hp
  cases t <;> dsimp only [inverse, onPoint, Point] at hp ⊢ <;> omega

/-- The inverse takes the image of a set of live points back to the set. -/
theorem onSet_inverse {b : Bitboard} (hlive : ∀ p, b.contains p = true → Point.onBoard p = true) :
    t.inverse.onSet (t.onSet b) = b := by
  have hcarries := t.carries_onSet hlive
  apply Bitboard.ext_contains
  intro q
  rw [Bool.eq_iff_iff, contains_onSet hcarries.live']
  constructor
  · rintro ⟨p, hp, rfl⟩
    obtain ⟨r, hr, rfl⟩ := (contains_onSet hlive p).1 hp
    rwa [t.onPoint_inverse (hlive r hr)]
  · intro hq
    exact ⟨t.onPoint q, (hcarries.contains q (hlive q hq)).trans hq, t.onPoint_inverse (hlive q hq)⟩

theorem onMove_of_not_proper {m : Move} (hm : m.isProper = false) : t.onMove m = m := by
  simp [onMove, hm]

/-- The image of a move on live points is one, and the inverse takes it back. -/
theorem onBoard_onMove {m : Move} (hm : m.OnBoard) :
    (t.onMove m).OnBoard ∧ t.inverse.onMove (t.onMove m) = m := by
  cases hm with
  | place hp =>
      have himage := t.onBoard_onPoint hp
      rw [t.onMove_place hp, onMove_place _ himage, t.onPoint_inverse hp]
      exact ⟨.place himage, rfl⟩
  | @slide a b ha hb hne =>
      have hne' : t.onPoint a ≠ t.onPoint b := fun h => hne ((t.onPoint_eq_iff hb a).1 h)
      rw [t.onMove_slide ha hb hne,
        onMove_slide _ (t.onBoard_onPoint ha) (t.onBoard_onPoint hb) hne',
        t.onPoint_inverse ha, t.onPoint_inverse hb]
      exact ⟨.slide (t.onBoard_onPoint ha) (t.onBoard_onPoint hb) hne', rfl⟩
  | remove hp =>
      have himage := t.onBoard_onPoint hp
      rw [t.onMove_remove hp, onMove_remove _ himage, t.onPoint_inverse hp]
      exact ⟨.remove himage, rfl⟩

end Symmetry

/-! ## What is remembered -/

namespace Memory

/-- Image of what is remembered. -/
def image (m : Memory) (t : Symmetry) : Memory where
  selected := m.selected.map t.onPoint
  lastMill := m.lastMill.map (Option.map t.onEnds)
  usedLines := m.usedLines.map t.onSet
  lastMove := t.onMove m.lastMove

/-- Only live points are remembered, and moves between them. -/
structure Live (m : Memory) : Prop where
  selected : ∀ p, m.selected = some p → Point.onBoard p = true
  lastMill : ∀ c l, m.lastMill.get c = some l →
    Point.onBoard l.1 = true ∧ Point.onBoard l.2 = true
  usedLines : ∀ c p, (m.usedLines.get c).contains p = true → Point.onBoard p = true
  lastMove : m.lastMove.isProper = true → m.lastMove.OnBoard

variable {m : Memory}

/-- The image of what names live points names live points. -/
theorem Live.image (h : m.Live) (t : Symmetry) : (m.image t).Live where
  selected p hp := by
    obtain ⟨q, hq, rfl⟩ := Option.map_eq_some_iff.1 hp
    exact t.onBoard_onPoint (h.selected q hq)
  lastMill c l hl := by
    rw [Memory.image, PerSide.get_map] at hl
    obtain ⟨ends, hends, rfl⟩ := Option.map_eq_some_iff.1 hl
    obtain ⟨hstart, hend⟩ := h.lastMill c ends hends
    exact ⟨t.onBoard_onPoint hstart, t.onBoard_onPoint hend⟩
  usedLines c p hp := by
    rw [Memory.image, PerSide.get_map] at hp
    exact (Symmetry.carries_onSet (h.usedLines c)).live' p hp
  lastMove hproper := by
    show (t.onMove m.lastMove).OnBoard
    cases hm : m.lastMove.isProper with
    | true => exact (t.onBoard_onMove (h.lastMove hm)).1
    | false =>
        have hsame : (m.image t).lastMove = m.lastMove := t.onMove_of_not_proper hm
        rw [hsame, hm] at hproper
        cases hproper

/-- The inverse brings back what is remembered. -/
theorem Live.image_inverse (h : m.Live) (t : Symmetry) : (m.image t).image t.inverse = m := by
  have hselected : (m.selected.map t.onPoint).map t.inverse.onPoint = m.selected := by
    cases hp : m.selected with
    | none => rfl
    | some p => exact congrArg some (t.onPoint_inverse (h.selected p hp))
  have hmill : (m.lastMill.map (Option.map t.onEnds)).map (Option.map t.inverse.onEnds) =
      m.lastMill := by
    apply PerSide.eq_of_get
    intro c
    rw [PerSide.get_map, PerSide.get_map]
    cases hl : m.lastMill.get c with
    | none => rfl
    | some l =>
        obtain ⟨hstart, hend⟩ := h.lastMill c l hl
        exact congrArg some (Prod.ext (t.onPoint_inverse hstart) (t.onPoint_inverse hend))
  have hlines : (m.usedLines.map t.onSet).map t.inverse.onSet = m.usedLines := by
    apply PerSide.eq_of_get
    intro c
    rw [PerSide.get_map, PerSide.get_map, t.onSet_inverse (h.usedLines c)]
  have hmove : t.inverse.onMove (t.onMove m.lastMove) = m.lastMove := by
    cases hm : m.lastMove.isProper with
    | true => exact (t.onBoard_onMove (h.lastMove hm)).2
    | false => rw [t.onMove_of_not_proper hm, t.inverse.onMove_of_not_proper hm]
  simp only [Memory.image, hselected, hmill, hlines, hmove]

end Memory

namespace Position

variable {pos next : Position} {rule : Rule}

/-- What the image of a position remembers is the image of what the position remembers. -/
theorem memory_image (pos : Position) (t : Symmetry) :
    (pos.image t).state.memory = pos.state.memory.image t := by
  obtain ⟨l, k, _, _, heq⟩ := exists_image_eq pos t
  rw [heq]
  rfl

/-- All that names no point is the same in the image. -/
theorem plain_image (pos : Position) (t : Symmetry) :
    (pos.image t).state.plain = pos.state.plain := by
  obtain ⟨l, k, honBoard, hinHand, heq⟩ := exists_image_eq pos t
  rw [heq]
  simp only [State.plain, honBoard, hinHand]

/-! ## Positions -/

/-- The image of the image holds on every point what the position holds there. -/
theorem contentAt_image_inverse (pos : Position) (t : Symmetry) (p : Point) :
    ((pos.image t).image t.inverse).contentAt p = pos.contentAt p := by
  cases hp : Point.onBoard p with
  | true =>
      have hback := contentAt_image (pos.image t) t.inverse (t.onBoard_onPoint hp)
      rw [t.onPoint_inverse hp, contentAt_image pos t hp] at hback
      exact hback
  | false => rw [contentAt_image_outside _ _ hp, contentAt_image_outside _ _ hp]

/-- The inverse of a symmetry brings the position back. -/
theorem Sound.image_inverse (h : pos.Sound) (hlive : pos.state.memory.Live) (t : Symmetry) :
    (pos.image t).image t.inverse = pos := by
  have hback := (h.image t).image t.inverse
  apply eq_of_contents _ _ hback.agrees h.agrees (contentAt_image_inverse pos t) _ hback.key h.key
  · exact (carried_image (pos.image t) t.inverse).variant.trans (carried_image pos t).variant
  · rw [plain_image, plain_image]
  · rw [memory_image, memory_image, hlive.image_inverse]

/-! ## Moves remember live points -/

/-- A change that remembers nothing new remembers live points if the position does. -/
theorem Unremarked.live (h : pos.Unremarked next) (hlive : pos.state.memory.Live) :
    next.state.memory.Live :=
  h.memory ▸ hlive

theorem live_scoreMills (h : pos.state.memory.Live) {p : Point} (hp : Point.onBoard p = true)
    (c : Side) : (pos.scoreMills p c).2.state.memory.Live := by
  simp only [scoreMills]
  split
  · refine ⟨h.selected, h.lastMill, fun d q hq => ?_, h.lastMove⟩
    simp only [mapState, State.memory] at hq
    by_cases hd : d = c
    · subst hd
      rw [PerSide.get_set_self, contains_scoreLines, Bool.or_eq_true, List.any_eq_true] at hq
      rcases hq with hused | ⟨pair, hpair, hin⟩
      · exact h.usedLines d q hused
      · obtain ⟨_, hline, _⟩ := Board.partners_spec hp (List.mem_filter.1 hpair).1
        exact Board.onBoard_of_mem_lines hline hin
    · rw [PerSide.get_set_of_ne _ _ hd] at hq
      exact h.usedLines d q hq
  · exact h

/-- A slide is remembered with live ends. -/
theorem live_remember (h : pos.state.memory.Live) {slid : Option (Point × Point)}
    (hslid : ∀ l, slid = some l → Point.onBoard l.1 = true ∧ Point.onBoard l.2 = true) :
    (pos.remember slid).state.memory.Live := by
  refine ⟨h.selected, fun c l hl => ?_, h.usedLines, h.lastMove⟩
  simp only [remember, mapState, State.memory] at hl
  by_cases hc : c = pos.state.side
  · rw [hc, PerSide.get_set_self] at hl
    exact hslid l hl
  · rw [PerSide.get_set_of_ne _ _ hc] at hl
    exact h.lastMill c l hl

theorem live_drop (h : pos.state.memory.Live) (p : Point) : (pos.drop p).state.memory.Live := by
  have hforgot : (pos.remember none).state.memory.Live := live_remember h (by simp)
  exact ⟨by simp [drop, State.memory, mapState], hforgot.lastMill, h.usedLines, h.lastMove⟩

theorem live_placeMan (h : pos.state.memory.Live) {p : Point} (hp : Point.onBoard p = true) :
    (pos.placeMan p).2.state.memory.Live := by
  obtain ⟨n, hn⟩ := placeMan_snd pos p
  rw [hn]
  exact (afterDrop_cases _ n).unremarked.live (live_scoreMills (live_drop h p) hp _)

theorem live_slideMan (h : pos.state.memory.Live) {a b : Point} (ha : Point.onBoard a = true)
    (hb : Point.onBoard b = true) : (pos.slideMan a b).2.state.memory.Live := by
  have hshift : (pos.shift a b).state.memory.Live :=
    ⟨by simp [shift, State.memory, mapState], h.lastMill, h.usedLines, h.lastMove⟩
  have hscored := live_scoreMills hshift hb pos.state.side
  simp only [slideMan, afterShift]
  split
  · exact (unremarked_settle _).live (live_remember hscored (by simp))
  · split
    · refine live_remember hscored fun l hl => ?_
      split at hl
      · cases hl
        exact ⟨ha, hb⟩
      · cases hl
    · exact hscored

theorem live_slideSelected {p : Point} {r : Nat × Position} (h : pos.state.memory.Live)
    (hp : Point.onBoard p = true) (hslide : pos.slideSelected p = .ok r) :
    r.2.state.memory.Live := by
  obtain ⟨a, ha, _, rfl⟩ := slideSelected_iff.1 hslide
  exact live_slideMan h (h.selected a ha) hp

theorem live_placeFromHand {p : Point} {r : Nat × Position}
    (hphase : pos.state.phase = .ready ∨ pos.state.phase = .placing) (h : pos.state.memory.Live)
    (hp : Point.onBoard p = true) (hplace : pos.placeFromHand p = .ok r) :
    r.2.state.memory.Live := by
  obtain ⟨_, rfl⟩ := placeFromHand_iff.1 hplace
  rw [start_of_placing hphase]
  apply live_placeMan _ hp
  exact h

/-- Pointing at a point remembers live points only. -/
theorem live_put {p : Point} {r : Nat × Position} (h : pos.state.memory.Live)
    (hput : pos.put p = .ok r) : r.2.state.memory.Live := by
  obtain ⟨hfit, hact⟩ := put_ok_iff.1 hput
  obtain ⟨_, hp, _⟩ := pointFault_eq_none_iff.1 hfit
  simp only [putOn] at hact
  split at hact
  · cases hact
  · exact live_placeFromHand (.inl ‹_›) h hp hact
  · split at hact
    · cases hact
      refine ⟨fun q hq => ?_, h.lastMill, h.usedLines, h.lastMove⟩
      simp only [toggle, mapState, State.memory, Option.ite_none_left_eq_some,
        Option.some.injEq] at hq
      exact hq.2 ▸ hp
    · split at hact
      · exact live_slideSelected h hp hact
      · exact live_placeFromHand (.inr ‹_›) h hp hact
  · exact live_slideSelected h hp hact
  · cases hact
  · cases hact

/-- A slide remembers live points only. -/
theorem live_slide {a b : Point} {r : Nat × Position} (h : pos.state.memory.Live)
    (hslide : pos.slide a b = .ok r) : r.2.state.memory.Live := by
  obtain ⟨picked, hselect, hput⟩ := bind_eq_ok_iff.1 hslide
  obtain ⟨_, _, ha, _, rfl⟩ := select_ok_iff.1 hselect
  have hpicked : (pos.pick a).state.memory.Live :=
    ⟨fun q hq => Option.some.inj hq ▸ ha, h.lastMill, h.usedLines, h.lastMove⟩
  exact live_put hpicked hput

theorem live_remove {p : Point} (h : pos.state.memory.Live) (hremove : pos.remove p = .ok next) :
    next.state.memory.Live := by
  obtain ⟨_, rfl⟩ := remove_ok_iff.1 hremove
  apply (afterTaking_cases _ pos.removalTarget).unremarked.live
  obtain ⟨l, k, heq, _⟩ := clearPoint_eq pos p
  simp only [takeMan]
  rw [heq]
  exact ⟨by simp [State.memory, mapState, refreshKey], h.lastMill, h.usedLines, h.lastMove⟩

/-- A move made of live points leaves only live points to remember. -/
theorem live_apply {m : Move} (h : pos.state.memory.Live) (hm : m.isProper = true → m.OnBoard)
    (hnext : pos.apply m = .ok next) : next.state.memory.Live := by
  obtain ⟨played, hplayed, rfl⟩ := apply_ok_iff.1 hnext
  have hreleased : pos.release.state.memory.Live :=
    ⟨(fun _ hq => nomatch hq), h.lastMill, h.usedLines, h.lastMove⟩
  have hlive : played.state.memory.Live := by
    cases hplayed with
    | placed _ hput => exact live_put hreleased hput
    | slid _ hslide => exact live_slide h hslide
    | removed _ hremove => exact live_remove h hremove
  exact ⟨hlive.selected, hlive.lastMill, hlive.usedLines, hm⟩

theorem live_initial (pieceCount : Nat) : (State.initial pieceCount).memory.Live := by
  refine ⟨by simp [State.initial, State.memory], fun c l hl => ?_, fun c p hp => ?_,
    fun hp => nomatch hp⟩
  · cases c <;> cases hl
  · have hnone : (State.initial pieceCount).memory.usedLines.get c = .empty := PerSide.get_both _ c
    rw [hnone, Bitboard.contains_empty] at hp
    cases hp

/-- A game of moves made of live points remembers live points only. -/
theorem PlayedBy.live (h : PlayedBy Move.Built rule pos) : pos.state.memory.Live := by
  induction h with
  | begin hbegin =>
      obtain ⟨v, _, rfl⟩ := map_eq_ok_iff.1 hbegin
      exact live_initial _
  | move _ hm hnext ih => exact live_apply ih hm.onBoard hnext

end Position

end Morris
