import Morris.Proofs.Legal

/-!
# What accepted moves do

An accepted placement, slide or removal changes its own points and nothing else on the board, except
that the end of placing lifts the marks (`Position.Elsewhere`). `Position.Placed`, `Position.Slid`
and `Position.Removed` say what each kind of move does to the board and the counts.

There is one exception. Under a rule that allows sliding while men are being placed, a placement or
slide onto an own man is accepted as well: it only picks that man up, and is counted as a move
(`Position.Held`). `Position.reachable_apply_effect` says that this is all that can happen.
-/

set_option autoImplicit false

namespace Morris.Position

/-- Outside some points everything stays, except that marks go when placing ends. -/
def Elsewhere (pos next : Position) (touched : List Point) : Prop :=
  ∀ q, q ∉ touched → next.contentAt q = pos.contentAt q ∨
    (pos.contentAt q = .marked ∧ next.contentAt q = .empty ∧
      pos.state.phase = .placing ∧ next.state.phase ≠ .placing)

/-- A man of the side to move has come from the hand to an empty point. -/
structure Placed (pos next : Position) (p : Point) : Prop where
  free : pos.contentAt p = .empty
  man : next.contentAt p = pos.state.side.man
  hand : next.state.inHand.get pos.state.side + 1 = pos.state.inHand.get pos.state.side
  onBoard : next.state.onBoard = pos.state.onBoard.update pos.state.side (· + 1)
  elsewhere : pos.Elsewhere next [p]

/-- A man of the side to move has gone from one point to another, which was empty. -/
structure Slid (pos next : Position) (a b : Point) : Prop where
  man : pos.contentAt a = pos.state.side.man
  free : pos.contentAt b = .empty
  left : next.contentAt a = .empty
  arrived : next.contentAt b = pos.state.side.man
  onBoard : next.state.onBoard = pos.state.onBoard
  inHand : next.state.inHand = pos.state.inHand
  elsewhere : pos.Elsewhere next [a, b]

/-- A man of a side has been taken off a point, which is empty or marked now. -/
structure Removed (pos next : Position) (p : Point) (target : Side) : Prop where
  man : pos.contentAt p = target.man
  left : next.contentAt p = .empty ∨ next.contentAt p = .marked
  count : next.state.onBoard.get target + 1 = pos.state.onBoard.get target
  other : next.state.onBoard.get target.other = pos.state.onBoard.get target.other
  inHand : next.state.inHand = pos.state.inHand
  elsewhere : pos.Elsewhere next [p]

/-- The man on a point has been picked up, which is counted as a move. -/
def Held (pos next : Position) (p : Point) (m : Move) : Prop :=
  next = (pos.mapState fun s => { s with selected := some p }).log m

variable {pos mid next : Position}

/-- The consequences of a move leave alone what the movement of the men has left alone. -/
theorem Aftermath.elsewhere (h : mid.Aftermath next) {touched : List Point}
    (hphase : mid.state.phase = pos.state.phase)
    (hmid : ∀ q, q ∉ touched → mid.contentAt q = pos.contentAt q) :
    pos.Elsewhere next touched := by
  intro q hq
  rcases h.content q with hsame | ⟨hmarked, hempty⟩
  · exact Or.inl (hsame.trans (hmid q hq))
  · rw [hmid q hq] at hmarked
    rcases h.marksStay with hstay | ⟨hplacing, hended⟩
    · exact Or.inl ((hstay q).trans (hmid q hq))
    · exact Or.inr ⟨hmarked, hempty, hphase ▸ hplacing, hended⟩

/-- A man that has been put down stays. -/
theorem Aftermath.man (h : mid.Aftermath next) {p : Point} {c : Side}
    (hp : mid.contentAt p = c.man) : next.contentAt p = c.man := by
  rcases h.content p with hsame | ⟨hmarked, _⟩
  · exact hsame.trans hp
  · rw [hp] at hmarked
    exact absurd hmarked (Side.man_ne_marked c)

/-! ## Each kind of move -/

theorem placed_placeMan (h : pos.Consistent) {p : Point} (hp : Point.onBoard p = true)
    (hfree : pos.contentAt p = .empty) (hhand : pos.state.inHand.get pos.state.side ≠ 0) :
    pos.Placed (pos.placeMan p).2 p := by
  obtain ⟨n, hn⟩ := placeMan_snd pos p
  have hsame := sameTurn_scoreMills (pos.drop p) p pos.state.side
  have hclosed := (h.drop hp hfree hhand).scoreMills p pos.state.side
  have hafter := (afterDrop_cases ((pos.drop p).scoreMills p pos.state.side).2 n).aftermath
    hclosed.agrees
  have hcontent : ∀ q, ((pos.drop p).scoreMills p pos.state.side).2.contentAt q =
      if q = p then pos.state.side.man else pos.contentAt q := by
    intro q
    rw [hsame.content, contentAt_drop pos hp]
  rw [hn]
  constructor
  case free => exact hfree
  case man =>
    apply hafter.man
    rw [hcontent, if_pos rfl]
  case hand =>
    have hown := hafter.ownHand
    rw [hsame.side, hsame.layout] at hown
    -- the man came from the hand, and what follows takes from the other hand only
    have hdrop : (pos.drop p).state.inHand.get pos.state.side =
        pos.state.inHand.get pos.state.side - 1 := by
      show (pos.state.inHand.update pos.state.side (· - 1)).get pos.state.side = _
      rw [PerSide.get_update, if_pos rfl]
    have hnext := hown.trans hdrop
    rw [show (pos.drop p).state.side = pos.state.side from rfl] at hnext
    omega
  case onBoard =>
    rw [hafter.onBoard, hsame.layout]
    rfl
  case elsewhere =>
    apply hafter.elsewhere
    · exact hsame.phase
    · intro q hq
      rw [List.mem_singleton] at hq
      rw [hcontent, if_neg hq]

theorem slid_slideMan (h : pos.Consistent) {a b : Point} (hslide : pos.Slidable a b)
    (hb : Point.onBoard b = true) : pos.Slid (pos.slideMan a b).2 a b := by
  obtain ⟨opened, n, hn⟩ := slideMan_snd pos a b
  have hsame := (sameTurn_scoreMills (pos.shift a b) b pos.state.side).toSameMen.trans
    (afterShift_cases ((pos.shift a b).scoreMills b pos.state.side).2 a b opened n).sameMen
  rw [← hn] at hsame
  have ha := h.onBoard_of_man hslide.man
  have hne : a ≠ b := by
    rintro rfl
    have hfree := hslide.free
    rw [hslide.man] at hfree
    exact absurd hfree (Side.man_ne_empty _)
  -- what follows a slide moves no man, so the slide itself decides what stands where
  have hcontent : ∀ q, (pos.slideMan a b).2.contentAt q =
      if q = b then pos.state.side.man else if q = a then .empty else pos.contentAt q := by
    intro q
    rw [hsame.content, contentAt_shift pos ha hb]
  constructor
  case man => exact hslide.man
  case free => exact hslide.free
  case left => rw [hcontent, if_neg hne, if_pos rfl]
  case arrived => rw [hcontent, if_pos rfl]
  case onBoard =>
    rw [hsame.layout]
    rfl
  case inHand =>
    rw [hsame.layout]
    rfl
  case elsewhere =>
    intro q hq
    rw [List.mem_cons, List.mem_singleton, not_or] at hq
    left
    rw [hcontent, if_neg hq.2, if_neg hq.1]

theorem removed_takeMan (h : pos.Consistent) {p : Point} {target : Side}
    (hp : pos.contentAt p = target.man) :
    pos.Removed ((pos.takeMan p target).afterTaking target) p target := by
  have htaken := h.takeMan hp
  have hframe := takeMan_frame pos p target
  obtain ⟨hlifts, hmarks⟩ := (afterTaking_cases (pos.takeMan p target) target).lifts htaken.agrees
  have hcontent : ∀ q, (pos.takeMan p target).contentAt q =
      if q = p then pos.leftAfterTaking else pos.contentAt q :=
    contentAt_clearPoint pos (Point.lt_of_onBoard (h.onBoard_of_man hp))
  constructor
  case man => exact hp
  case left =>
    have hleft : (pos.takeMan p target).contentAt p = .empty ∨
        (pos.takeMan p target).contentAt p = .marked := by
      rw [hcontent, if_pos rfl, leftAfterTaking]
      split
      · exact Or.inr rfl
      · exact Or.inl rfl
    -- the end of placing may lift the mark that the removal has left
    rcases hlifts.content p with hsame | ⟨_, hempty⟩
    · rw [hsame]
      exact hleft
    · exact Or.inl hempty
  case count =>
    -- the man was counted
    have hpos : 0 < pos.state.onBoard.get target := by
      rw [h.counted.onBoard]
      have hcount := (h.clearPoint_spec (h.onBoard_of_man hp)).2.2 target
      rw [if_pos hp] at hcount
      omega
    rw [hlifts.onBoard, hframe.onBoard, PerSide.get_update, if_pos rfl]
    omega
  case other =>
    rw [hlifts.onBoard, hframe.onBoard, PerSide.get_update, if_neg (Side.other_ne target)]
  case inHand => exact hlifts.inHand.trans hframe.inHand
  case elsewhere =>
    apply (hlifts.aftermath hmarks).elsewhere hframe.phase
    intro q hq
    rw [List.mem_singleton] at hq
    rw [hcontent, if_neg hq]

/-! ## Accepted moves -/

theorem toggle_pick {a b : Point} (hne : a ≠ b) (haction : pos.state.action = .place) :
    (pos.pick a).toggle b = pos.mapState fun s => { s with selected := some b } := by
  have hother : (some a : Option Point) ≠ some b := fun e => hne (Option.some.inj e)
  obtain ⟨v, s⟩ := pos
  show Position.mk v { s with
    action := .place, selected := if (some a : Option Point) = some b then none else some b } =
      Position.mk v { s with selected := some b }
  rw [if_neg hother, ← show s.action = .place from haction]

theorem effect_place (h : pos.Sound) {p : Point} (hp : Point.onBoard p = true)
    (hnext : pos.apply (.place p) = .ok next) :
    (pos.contentAt p ≠ pos.state.side.man → pos.Placed next p) ∧
      (pos.contentAt p = pos.state.side.man → pos.state.phase = .placing ∧
        pos.rule.mayMoveWhilePlacing = true ∧ pos.Held next p (.place p)) := by
  obtain ⟨⟨n, played⟩, hput, rfl⟩ := (apply_place_iff hp).1 hnext
  have hrelease : pos.release.Sound := h.of_sameTurn (sameTurn_release pos)
  have hputting : pos.release.Putting p played := hrelease.put_cases hput
  cases hputting with
  | placed hphase _ hfree hhand =>
      have hfree' : pos.contentAt p = .empty := hfree
      refine ⟨fun _ => ?_, fun hman => ?_⟩
      · have hstart : pos.release.start =
            pos.release.mapState fun s => { s with phase := .placing } :=
          start_of_placing (hphase.imp_right And.left)
        have hbegun := hrelease.start
        rw [hstart] at hbegun ⊢
        have hplaced := placed_placeMan hbegun.toConsistent hp hfree hhand
        refine ⟨hfree', hplaced.man, hplaced.hand, hplaced.onBoard, fun q hq => ?_⟩
        rcases hplaced.elsewhere q hq with hsame | ⟨hmarked, hempty, _, hended⟩
        · exact Or.inl hsame
        · -- there is no mark before the first placement
          have hplacing : pos.state.phase = .placing := by
            rcases hphase with hready | ⟨hplacing, _⟩
            · have hnone := (h.stage.untouched_of_ready hready).content q
              rw [show pos.contentAt q = .marked from hmarked] at hnone
              cases hnone
            · exact hplacing
          exact Or.inr ⟨hmarked, hempty, hplacing, hended⟩
      · rw [hfree'] at hman
        exact absurd hman.symm (Side.man_ne_empty _)
  | picked hplacing hmay _ hman =>
      exact ⟨fun hnot => absurd hman hnot, fun _ => ⟨hplacing, hmay, rfl⟩⟩
  -- no man is picked up when a placement begins
  | slid _ _ _ hselected _ => cases hselected

/-- While a man is picked up, none comes from the hand. -/
theorem not_placed_of_select {picked : Position} {a : Point} (h : pos.select a = .ok picked) :
    ¬ (picked.state.phase = .ready ∨
      (picked.state.phase = .placing ∧ picked.state.action = .place ∧
        (picked.rule.mayMoveWhilePlacing = false ∨ picked.state.selected = none))) := by
  obtain ⟨hphase, _, _, _, rfl⟩ := select_ok_iff.1 h
  rintro (hready | ⟨hplacing, _, hidle⟩)
  · have hready' : pos.state.phase = .ready := hready
    rcases hphase with h | ⟨h, _⟩ <;> rw [hready'] at h <;> cases h
  · have hplacing' : pos.state.phase = .placing := hplacing
    rcases hphase with hmoving | ⟨_, hmay⟩
    · rw [hplacing'] at hmoving
      cases hmoving
    · rcases hidle with hnot | hnone
      · rw [show pos.rule.mayMoveWhilePlacing = false from hnot] at hmay
        cases hmay
      · cases hnone

theorem effect_slide (h : pos.Sound) {a b : Point} (ha : Point.onBoard a = true)
    (hb : Point.onBoard b = true) (hne : a ≠ b) (hnext : pos.apply (.slide a b) = .ok next) :
    (pos.contentAt b ≠ pos.state.side.man → pos.Slid next a b) ∧
      (pos.contentAt b = pos.state.side.man → pos.state.phase = .placing ∧
        pos.rule.mayMoveWhilePlacing = true ∧ pos.Held next b (.slide a b)) := by
  obtain ⟨⟨n, played⟩, hslide, rfl⟩ := (apply_slide_iff ha hb).1 hnext
  obtain ⟨picked, hselect, hput⟩ := bind_eq_ok_iff.1 hslide
  have hsound := h.select hselect
  have hidle := not_placed_of_select hselect
  obtain ⟨hphase, haction, _, hman, rfl⟩ := select_ok_iff.1 hselect
  have hputting : (pos.pick a).Putting b played := hsound.put_cases hput
  cases hputting with
  -- with a man picked up nothing is placed
  | placed hplace _ _ _ => exact absurd hplace hidle
  | picked hplacing hmay _ hown =>
      refine ⟨fun hnot => absurd hown hnot, fun _ => ⟨hplacing, hmay, ?_⟩⟩
      rw [Held, toggle_pick hne (h.stage.place_of_placing hplacing haction)]
  | slid _ _ _ hselected hslidable =>
      cases hselected
      have hslid := slid_slideMan hsound.toConsistent hslidable hb
      refine ⟨fun _ => ?_, fun hown => ?_⟩
      · exact ⟨hslid.man, hslid.free, hslid.left, hslid.arrived, hslid.onBoard, hslid.inHand,
          hslid.elsewhere⟩
      · have hfree : pos.contentAt b = .empty := hslidable.free
        rw [hfree] at hown
        exact absurd hown.symm (Side.man_ne_empty _)

theorem effect_remove (h : pos.Sound) {p : Point} (hp : Point.onBoard p = true)
    (hnext : pos.apply (.remove p) = .ok next) : pos.Removed next p pos.removalTarget := by
  obtain ⟨removed, hremove, rfl⟩ := (apply_remove_iff hp).1 hnext
  obtain ⟨hremovable, rfl⟩ := remove_ok_iff.1 hremove
  have hremoved := removed_takeMan h.toConsistent hremovable.man
  exact ⟨hremoved.man, hremoved.left, hremoved.count, hremoved.other, hremoved.inHand,
    hremoved.elsewhere⟩

/-- What an accepted move does. A placement or slide whose target does not hold an own man, and
every removal, does what its name says; a target that holds an own man is only picked up, which
happens while men are being placed under a rule that allows sliding then. -/
theorem reachable_apply_effect {rule : Rule} (h : Reachable rule pos) {m : Move}
    (hnext : pos.apply m = .ok next) :
    (∀ p, Point.onBoard p = true → m = .place p →
      (pos.contentAt p ≠ pos.state.side.man → pos.Placed next p) ∧
        (pos.contentAt p = pos.state.side.man → pos.state.phase = .placing ∧
          pos.rule.mayMoveWhilePlacing = true ∧ pos.Held next p m)) ∧
    (∀ a b, Point.onBoard a = true → Point.onBoard b = true → a ≠ b → m = .slide a b →
      (pos.contentAt b ≠ pos.state.side.man → pos.Slid next a b) ∧
        (pos.contentAt b = pos.state.side.man → pos.state.phase = .placing ∧
          pos.rule.mayMoveWhilePlacing = true ∧ pos.Held next b m)) ∧
    (∀ p, Point.onBoard p = true → m = .remove p → pos.Removed next p pos.removalTarget) := by
  have hsound := h.sound
  refine ⟨?_, ?_, ?_⟩
  · rintro p hp rfl
    exact effect_place hsound hp hnext
  · rintro a b ha hb hne rfl
    exact effect_slide hsound ha hb hne hnext
  · rintro p hp rfl
    exact effect_remove hsound hp hnext

/-- Lasker Morris after two placements of each side. -/
def lasker : Position :=
  (ofVariant (.ofRule { pieceCount := 10, mayMoveWhilePlacing := true })).performAll
    [.apply (.place 8), .apply (.place 26), .apply (.place 9), .apply (.place 28)]

/-- The same position with a man held. -/
def laskerHolding (p : Point) (m : Move) : Position :=
  (lasker.mapState fun s => { s with selected := some p }).log m

/-- White slides a man onto another of its own: nothing moves, and the other man is held. -/
theorem reachable_apply_effect_own_man :
    Reachable { pieceCount := 10, mayMoveWhilePlacing := true } lasker ∧
      lasker.apply (.slide 8 9) = .ok (laskerHolding 9 (.slide 8 9)) ∧
      lasker.Held (laskerHolding 9 (.slide 8 9)) 9 (.slide 8 9) := by
  have hreach : Reachable { pieceCount := 10, mayMoveWhilePlacing := true } lasker :=
    (Reachable.begin rfl).performAll _
  have hnext : lasker.apply (.slide 8 9) = .ok (laskerHolding 9 (.slide 8 9)) :=
    toOption_eq_some_iff.1 (by decide +kernel)
  obtain ⟨_, hslide, _⟩ := reachable_apply_effect hreach hnext
  have hown : lasker.contentAt 9 = lasker.state.side.man := by decide +kernel
  exact ⟨hreach, hnext, ((hslide 8 9 rfl rfl (by decide) rfl).2 hown).2.2⟩

/-- Not every accepted placement places a man, and not every accepted slide slides one. -/
theorem not_forall_placed_nor_forall_slid :
    (¬ ∀ (rule : Rule) (pos next : Position) (p : Point), Reachable rule pos →
      Point.onBoard p = true → pos.apply (.place p) = .ok next → pos.Placed next p) ∧
    (¬ ∀ (rule : Rule) (pos next : Position) (a b : Point), Reachable rule pos →
      Point.onBoard a = true → Point.onBoard b = true → a ≠ b →
      pos.apply (.slide a b) = .ok next → pos.Slid next a b) := by
  have hreach : Reachable { pieceCount := 10, mayMoveWhilePlacing := true } lasker :=
    (Reachable.begin rfl).performAll _
  constructor
  · intro hall
    have hnext : lasker.apply (.place 8) = .ok (laskerHolding 8 (.place 8)) :=
      toOption_eq_some_iff.1 (by decide +kernel)
    have hfree := (hall _ _ _ 8 hreach rfl hnext).free
    exact absurd hfree (by decide +kernel)
  · intro hall
    have hnext : lasker.apply (.slide 8 9) = .ok (laskerHolding 9 (.slide 8 9)) :=
      toOption_eq_some_iff.1 (by decide +kernel)
    have hfree := (hall _ _ _ 8 9 hreach rfl rfl (by decide) hnext).free
    exact absurd hfree (by decide +kernel)

end Morris.Position
