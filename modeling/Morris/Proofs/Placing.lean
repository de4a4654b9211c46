import Morris.Proofs.Turn

/-!
# The end of placing

Placing ends when nothing is left to place and nothing is owed. `Position.PlacingEnd` lists what
`endPlacing?` then makes of a position. All of it leaves the men where they are, except that marks
may be lifted: `Position.Lifts` is the frame of that change, and `Position.PlacingEnd.lifts` says
that the end of placing stays within it. Afterwards the game is in the moving phase
(`Position.PlacingEnd.moving`).
-/

set_option autoImplicit false

namespace Morris.Position

/-! ## Lifting marks -/

/-- The men stay where they are and some marks may be gone. -/
structure Lifts (pos next : Position) : Prop where
  variant : next.variant = pos.variant
  quiet : next.state.quiet = pos.state.quiet
  onBoard : next.state.onBoard = pos.state.onBoard
  inHand : next.state.inHand = pos.state.inHand
  content : ∀ q, next.contentAt q = pos.contentAt q ∨
    (pos.contentAt q = .marked ∧ next.contentAt q = .empty)
  agrees : pos.state.Agrees → next.state.Agrees
  count : ∀ c : Side, next.state.board.count c.man = pos.state.board.count c.man

/-- A change that leaves men and marks alone lifts no mark. -/
theorem SameMen.lifts {pos next : Position} (h : pos.SameMen next) : pos.Lifts next where
  variant := h.variant
  quiet := h.quiet
  onBoard := by rw [h.layout]
  inHand := by rw [h.layout]
  content q := Or.inl (h.content q)
  agrees := by rw [h.layout]; exact id
  count c := by rw [h.layout]

/-- Marks may be lifted in two steps: a point that the first leaves alone is up to the second. -/
theorem Lifts.trans {pos mid next : Position} (h : pos.Lifts mid) (h' : mid.Lifts next) :
    pos.Lifts next where
  variant := h'.variant.trans h.variant
  quiet := h'.quiet.trans h.quiet
  onBoard := h'.onBoard.trans h.onBoard
  inHand := h'.inHand.trans h.inHand
  content q := by
    rcases h.content q with hq | ⟨hmarked, hempty⟩
    -- a point that the first step leaves alone is up to the second
    · rw [← hq]
      exact h'.content q
    · right
      refine ⟨hmarked, ?_⟩
      rcases h'.content q with hq' | ⟨hq', _⟩
      · rw [hq', hempty]
      · rw [hempty] at hq'
        cases hq'
  agrees := fun ha => h'.agrees (h.agrees ha)
  count c := (h'.count c).trans (h.count c)

theorem Lifts.rule {pos next : Position} (h : pos.Lifts next) : next.rule = pos.rule :=
  congrArg Variant.rule h.variant

theorem contentAt_vacate (pos : Position) {p : Point} (hp : p < 32) (q : Point) :
    (pos.vacate p).contentAt q = if q = p then .empty else pos.contentAt q :=
  Layout.content_vacate pos.state.toLayout hp q

/-- Emptying a marked point lifts its mark and moves no man. -/
theorem lifts_vacate {pos : Position} {p : Point} (hp : p < 32)
    (hmarked : pos.contentAt p = .marked) : pos.Lifts (pos.vacate p) where
  variant := rfl
  quiet := rfl
  onBoard := rfl
  inHand := rfl
  content q := by
    rw [contentAt_vacate pos hp]
    by_cases hq : q = p
    · rw [if_pos hq, hq]
      exact Or.inr ⟨hmarked, rfl⟩
    · rw [if_neg hq]
      exact Or.inl rfl
  -- a mark is not a man, so no man goes
  agrees := fun h => h.vacate hp
  count c := by
    have hcount := Layout.count_vacate pos.state.toLayout hp (Side.man_ne_empty c)
    have hold : pos.state.content p ≠ c.man := by
      rw [show pos.state.content p = .marked from hmarked]
      exact (Side.man_ne_marked c).symm
    rw [if_neg hold] at hcount
    exact hcount

/-- Emptying distinct marked points one after the other lifts their marks, and the key goes along.
-/
theorem foldl_vacate {ps : List Point} {pos : Position} (hnodup : ps.Nodup)
    (hmarked : ∀ p ∈ ps, Point.onBoard p = true ∧ pos.contentAt p = .marked) :
    pos.Lifts (ps.foldl vacate pos) ∧ (pos.KeyExact → (ps.foldl vacate pos).KeyExact) := by
  induction ps generalizing pos with
  | nil => exact ⟨(SameMen.refl pos).lifts, id⟩
  | cons p ps ih =>
      rw [List.nodup_cons] at hnodup
      obtain ⟨hp, hcontent⟩ := hmarked p List.mem_cons_self
      have hlt := Point.lt_of_onBoard hp
      -- the other points of the list are still marked once `p` is empty
      have hrest : ∀ q ∈ ps, Point.onBoard q = true ∧ (pos.vacate p).contentAt q = .marked := by
        intro q hq
        have hne : q ≠ p := by
          rintro rfl
          exact hnodup.1 hq
        obtain ⟨hq, hqm⟩ := hmarked q (List.mem_cons_of_mem p hq)
        rw [contentAt_vacate pos hlt, if_neg hne]
        exact ⟨hq, hqm⟩
      obtain ⟨hlifts, hkey⟩ := ih hnodup.2 hrest
      exact ⟨(lifts_vacate hlt hcontent).trans hlifts, fun h => hkey (keyExact_vacate h hp)⟩

/-- Clearing the marks moves no man and keeps the key right. -/
theorem clearMarks_spec {pos : Position} (h : pos.state.Agrees) :
    pos.Lifts pos.clearMarks ∧ (pos.KeyExact → pos.clearMarks.KeyExact) := by
  apply foldl_vacate
  · exact List.Pairwise.filter _ List.nodup_range
  · intro p hp
    have hmarked := (h.marked p).1 ((Bitboard.mem_points _ p).1 hp)
    refine ⟨h.onBoard_of_content ?_, hmarked⟩
    rw [hmarked]
    simp

/-! ## What the end of placing does -/

/-- What `endPlacing?` can make of a position in which placing is done. -/
inductive PlacingEnd (pos : Position) : Position → Prop
  /-- Marks are lifted. -/
  | lifted : pos.rule.millAction = .markPoint →
      PlacingEnd pos (pos.clearMarks.giveTurn (firstMover pos.rule))
  /-- Both sides are to remove men by their number of mills. -/
  | counted : pos.rule.millAction = .countMillsLater →
      PlacingEnd pos (pos.oweForMills.giveTurn (firstMover pos.rule))
  /-- The side that moves first gets the turn. -/
  | plain : pos.rule.millAction ≠ .markPoint → pos.rule.millAction ≠ .countMillsLater →
      PlacingEnd pos (pos.giveTurn (firstMover pos.rule))

/-- If placing ends, then nothing is left to place or to remove, and one of three things happens. -/
theorem placingEnd_of_endPlacing {pos next : Position} (h : pos.endPlacing? = some next) :
    pos.isPlacingDone = true ∧ pos.PlacingEnd next := by
  simp only [endPlacing?] at h
  split at h
  · cases h
  · rename_i hdone
    refine ⟨by simpa using hdone, ?_⟩
    split at h
    · rename_i hmark
      cases h
      exact .lifted hmark
    · rename_i hcount
      cases h
      exact .counted hcount
    · rename_i hmark hcount
      split at h
      · cases h
      · cases h
        exact .plain hmark hcount

theorem hands_of_isPlacingDone {pos : Position} (h : pos.isPlacingDone = true) (c : Side) :
    pos.state.inHand.get c = 0 := by
  simp only [isPlacingDone, Bool.and_eq_true, beq_iff_eq] at h
  cases c with
  | white => exact h.1.1.1.2
  | black => exact h.1.1.2

/-- The end of placing leaves the men where they are and at most lifts marks. -/
theorem PlacingEnd.lifts {pos next : Position} (h : pos.PlacingEnd next)
    (hagrees : pos.state.Agrees) : pos.Lifts next := by
  cases h with
  | lifted _ => exact (clearMarks_spec hagrees).1.trans (sameMen_giveTurn _ _).lifts
  | counted _ => exact ((sameMen_oweForMills pos).trans (sameMen_giveTurn _ _)).lifts
  | plain _ _ => exact (sameMen_giveTurn pos _).lifts

theorem keyExact_oweForMills {pos : Position} (h : pos.KeyFollows) : pos.oweForMills.KeyExact :=
  keyExact_refreshKey h

/-- The end of placing keeps the key right. -/
theorem PlacingEnd.keyExact {pos next : Position} (h : pos.PlacingEnd next)
    (hagrees : pos.state.Agrees) (hkey : pos.KeyExact) : next.KeyExact := by
  cases h with
  | lifted _ => exact keyExact_giveTurn ((clearMarks_spec hagrees).2 hkey).follows _
  | counted _ => exact keyExact_giveTurn (keyExact_oweForMills hkey.follows).follows _
  | plain _ _ => exact keyExact_giveTurn hkey.follows _

/-- After the end of placing the action fits the phase and the removals owed. -/
theorem PlacingEnd.turned {pos next : Position} (h : pos.PlacingEnd next) : next.Turned := by
  cases h with
  | lifted _ => exact turned_giveTurn _ _
  | counted _ => exact turned_giveTurn _ _
  | plain _ _ => exact turned_giveTurn _ _

theorem moving_giveTurn {pos : Position} {c : Side} (h : pos.state.inHand.get c = 0) :
    (pos.giveTurn c).state.phase = .moving := if_pos h

/-- The moving phase follows, whoever gets the turn. -/
theorem PlacingEnd.moving {pos next : Position} (h : pos.PlacingEnd next)
    (hagrees : pos.state.Agrees) (hdone : pos.isPlacingDone = true) :
    next.state.phase = .moving := by
  have hhand := hands_of_isPlacingDone hdone (firstMover pos.rule)
  cases h with
  -- marks are lifted without touching the hands
  | lifted _ =>
      apply moving_giveTurn
      rw [(clearMarks_spec hagrees).1.inHand]
      exact hhand
  | counted _ => exact moving_giveTurn hhand
  | plain _ _ => exact moving_giveTurn hhand

/-- Either placing ends, or the turn passes to the other side. -/
theorem endPlacingOrPass_cases (pos : Position) :
    (pos.isPlacingDone = true ∧ pos.PlacingEnd pos.endPlacingOrPass) ∨
      pos.endPlacingOrPass = pos.passTurn := by
  simp only [endPlacingOrPass]
  cases h : pos.endPlacing? with
  | none => exact Or.inr rfl
  | some next => exact Or.inl (placingEnd_of_endPlacing h)

end Morris.Position
