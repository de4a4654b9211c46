import Morris.Proofs.Play

/-!
# What the acts of a player do

Each act of a player accepts or refuses, and an accepted act changes the position in one of a few
ways. This module says for every act when it is accepted and what comes out. Of the men, `drop` puts
one down, `shift` moves one and `takeMan` takes one off, and the content of every point afterwards
is known. The acts of pointing, picking up, sliding and removing are inverted in turn; `Playing` and
`apply_ok_iff` gather them for a whole move.
-/

set_option autoImplicit false

namespace Morris

/-! ## Codes of moves on live points -/

namespace Move

/-- The codes of all moves between live points. -/
theorem codes :
    (∀ p ∈ Point.all,
      ((place p).kind = .place ∧ (place p).target = p ∧ (place p).isProper = true) ∧
        (remove p).kind = .remove ∧ (remove p).target = p ∧ (remove p).isProper = true) ∧
    ∀ a ∈ Point.all, ∀ b ∈ Point.all,
      ((slide a b).kind = .slide ∧ (slide a b).origin = a ∧ (slide a b).target = b) ∧
        (a ≠ b → (slide a b).isProper = true) := by
  decide +kernel

/-- The code of a placement tells its kind and its point. -/
theorem place_spec {p : Point} (hp : Point.onBoard p = true) :
    (place p).kind = .place ∧ (place p).target = p := by
  obtain ⟨hkind, htarget, _⟩ := (codes.1 p ((Point.mem_all p).2 hp)).1
  exact ⟨hkind, htarget⟩

theorem remove_spec {p : Point} (hp : Point.onBoard p = true) :
    (remove p).kind = .remove ∧ (remove p).target = p := by
  obtain ⟨hkind, htarget, _⟩ := (codes.1 p ((Point.mem_all p).2 hp)).2
  exact ⟨hkind, htarget⟩

/-- The code of a slide tells its kind and both its points. -/
theorem slide_spec {a b : Point} (ha : Point.onBoard a = true) (hb : Point.onBoard b = true) :
    (slide a b).kind = .slide ∧ (slide a b).origin = a ∧ (slide a b).target = b :=
  (codes.2 a ((Point.mem_all a).2 ha) b ((Point.mem_all b).2 hb)).1

theorem isProper_place {p : Point} (hp : Point.onBoard p = true) : (place p).isProper = true :=
  (codes.1 p ((Point.mem_all p).2 hp)).1.2.2

theorem isProper_remove {p : Point} (hp : Point.onBoard p = true) : (remove p).isProper = true :=
  (codes.1 p ((Point.mem_all p).2 hp)).2.2.2

/-- The code of a slide between two distinct points is proper. -/
theorem isProper_slide {a b : Point} (ha : Point.onBoard a = true) (hb : Point.onBoard b = true)
    (hne : a ≠ b) : (slide a b).isProper = true :=
  (codes.2 a ((Point.mem_all a).2 ha) b ((Point.mem_all b).2 hb)).2 hne

end Move

namespace Position

/-! ## Accepted and refused -/

section Except

variable {ε α β : Type}

/-- A mapped result is accepted if the result is. -/
theorem map_eq_ok_iff {e : Except ε α} {f : α → β} {b : β} :
    e.map f = .ok b ↔ ∃ a, e = .ok a ∧ f a = b := by
  cases e with
  | error refusal => simp [Except.map]
  | ok a => simp [Except.map]

/-- Two steps are accepted if both are, which takes a chain of checks apart. -/
theorem bind_eq_ok_iff {e : Except ε α} {f : α → Except ε β} {b : β} :
    e.bind f = .ok b ↔ ∃ a, e = .ok a ∧ f a = .ok b := by
  cases e with
  | error refusal => simp [Except.bind]
  | ok a => simp [Except.bind]

theorem toOption_eq_some_iff {e : Except ε α} {a : α} : e.toOption = some a ↔ e = .ok a := by
  cases e with
  | error refusal => simp [Except.toOption]
  | ok a => simp [Except.toOption]

end Except

/-! ## Moving the men -/

/-- Putting a man down changes one point only. -/
theorem contentAt_drop (pos : Position) {p : Point} (hp : Point.onBoard p = true) (q : Point) :
    (pos.drop p).contentAt q = if q = p then pos.state.side.man else pos.contentAt q :=
  Layout.content_fill pos.state.toLayout (Point.lt_of_onBoard hp) _ q

theorem contentAt_drop_self (pos : Position) {p : Point} (hp : Point.onBoard p = true) :
    (pos.drop p).contentAt p = pos.state.side.man := by
  rw [contentAt_drop pos hp, if_pos rfl]

/-- Sliding a man changes the two points of the slide only. -/
theorem contentAt_shift (pos : Position) {a b : Point} (ha : Point.onBoard a = true)
    (hb : Point.onBoard b = true) (q : Point) :
    (pos.shift a b).contentAt q =
      if q = b then pos.state.side.man else if q = a then .empty else pos.contentAt q := by
  have hfill : (pos.shift a b).contentAt q =
      if q = b then pos.state.side.man else (pos.vacate a).contentAt q :=
    Layout.content_fill (pos.vacate a).state.toLayout (Point.lt_of_onBoard hb) _ q
  rw [hfill, contentAt_vacate pos (Point.lt_of_onBoard ha)]

theorem contentAt_shift_self (pos : Position) {a b : Point} (ha : Point.onBoard a = true)
    (hb : Point.onBoard b = true) : (pos.shift a b).contentAt b = pos.state.side.man := by
  rw [contentAt_shift pos ha hb, if_pos rfl]

/-- What a removal leaves on its point. -/
def leftAfterTaking (pos : Position) : Content :=
  if pos.rule.millAction == .markPoint && pos.state.phase == .placing then .marked else .empty

/-- Taking a man off changes one point only, which is left empty or marked. -/
theorem contentAt_clearPoint (pos : Position) {p : Point} (hp : p < 32) (q : Point) :
    (pos.clearPoint p).contentAt q = if q = p then pos.leftAfterTaking else pos.contentAt q := by
  simp only [clearPoint, leftAfterTaking]
  split
  · have hfill : ((pos.vacate p).putMark p).contentAt q =
        if q = p then .marked else (pos.vacate p).contentAt q :=
      Layout.content_fill (pos.vacate p).state.toLayout hp _ q
    rw [hfill, contentAt_vacate pos hp]
    split <;> rfl
  · exact contentAt_vacate pos hp q

theorem clearPoint_eq (pos : Position) (p : Point) : ∃ (l : Layout) (k : Key),
    pos.clearPoint p = pos.mapState (fun s => { s with toLayout := l, key := k }) ∧
      l.onBoard = pos.state.onBoard ∧ l.inHand = pos.state.inHand := by
  simp only [clearPoint]
  split <;> exact ⟨_, _, rfl, rfl, rfl⟩

/-- What a removal changes besides the board: the removal is counted, and nothing else. -/
structure TakeFrame (pos : Position) (target : Side) (next : Position) : Prop where
  variant : next.variant = pos.variant
  side : next.state.side = pos.state.side
  phase : next.state.phase = pos.state.phase
  action : next.state.action = pos.state.action
  quiet : next.state.quiet = 0
  onBoard : next.state.onBoard = pos.state.onBoard.update target (· - 1)
  inHand : next.state.inHand = pos.state.inHand
  owed : next.state.owed =
    pos.state.owed.set pos.state.side (pos.state.owed.get pos.state.side - 1)
  takesOwn : next.state.takesOwn =
    if pos.state.owed.get pos.state.side - 1 = 0 then pos.state.takesOwn.set pos.state.side false
    else pos.state.takesOwn
  frees : next.state.freesMover = pos.state.freesMover

theorem TakeFrame.rule {pos next : Position} {target : Side} (h : pos.TakeFrame target next) :
    next.rule = pos.rule :=
  congrArg Variant.rule h.variant

/-- Taking a man changes nothing besides the board but what `TakeFrame` lists. -/
theorem takeMan_frame (pos : Position) (p : Point) (target : Side) :
    pos.TakeFrame target (pos.takeMan p target) := by
  obtain ⟨l, k, heq, honBoard, hinHand⟩ := clearPoint_eq pos p
  simp only [takeMan]
  rw [heq]
  constructor
  case onBoard =>
    show l.onBoard.update target (· - 1) = _
    rw [honBoard]
  case inHand => exact hinHand
  all_goals rfl

/-- A placement puts a man down, looks for mills and goes on from their number. -/
theorem placeMan_snd (pos : Position) (p : Point) : ∃ n,
    (pos.placeMan p).2 = (((pos.drop p).scoreMills p pos.state.side).2).afterDrop n :=
  ⟨_, rfl⟩

/-- A slide moves a man, looks for mills and goes on from their number. -/
theorem slideMan_snd (pos : Position) (a b : Point) : ∃ opened n,
    (pos.slideMan a b).2 =
      (((pos.shift a b).scoreMills b pos.state.side).2).afterShift a b opened n :=
  ⟨_, _, rfl⟩

/-! ## Pointing at a point -/

/-- What a slide of the side to move needs. -/
structure Slidable (pos : Position) (a b : Point) : Prop where
  man : pos.contentAt a = pos.state.side.man
  free : pos.contentAt b = .empty
  reach : pos.canFly pos.state.side = true ∨ Board.isAdjacent pos.rule.hasDiagonals a b = true
  back : pos.returnsToMill a b = false

/-- A slide to a point is accepted if a man is picked up and may slide there. -/
theorem slideSelected_iff {pos : Position} {b : Point} {r : Nat × Position} :
    pos.slideSelected b = .ok r ↔
      ∃ a, pos.state.selected = some a ∧ pos.Slidable a b ∧ r = pos.slideMan a b := by
  simp only [slideSelected]
  constructor
  · intro h
    split at h
    · cases h
    · rename_i a ha
      -- the four checks are nested, and all but one branch end in a refusal
      simp only [ite_not] at h
      split at h
      · split at h
        · split at h
          · cases h
          · split at h
            · cases h
            · rename_i hman hfree hreach hback
              cases h
              refine ⟨a, ha, ⟨hman, hfree, ?_, eq_false_of_ne_true hback⟩, rfl⟩
              -- who may fly was not asked to be a neighbour
              cases hfly : pos.canFly pos.state.side with
              | true => exact Or.inl rfl
              | false =>
                  rw [hfly] at hreach
                  exact Or.inr (by simpa using hreach)
        · cases h
      · cases h
  · rintro ⟨a, ha, hslide, rfl⟩
    have hreach : ¬ (!pos.canFly pos.state.side &&
        !Board.isAdjacent pos.rule.hasDiagonals a b) = true := by
      rcases hslide.reach with h | h <;> simp [h]
    simp only [ha, hslide.man, hslide.free, hslide.back, if_neg hreach]
    simp

/-- A point is fit for a man if it is empty, or holds an own man that may slide while men are being
placed. -/
theorem pointFault_eq_none_iff {pos : Position} {p : Point} :
    pos.pointFault? p = none ↔ pos.state.phase ≠ .finished ∧ Point.onBoard p = true ∧
      (pos.contentAt p = .empty ∨
        (pos.rule.mayMoveWhilePlacing = true ∧ pos.contentAt p = pos.state.side.man)) := by
  simp only [pointFault?, isOver]
  by_cases hover : pos.state.phase = .finished
  · simp [hover]
  · cases hp : Point.onBoard p with
    | false => simp [hover]
    | true =>
        cases hside : pos.state.side <;> cases hcontent : pos.contentAt p <;>
          cases hmay : pos.rule.mayMoveWhilePlacing <;> simp [hover, Side.man, Side.other]

/-- Pointing at a point succeeds if nothing is wrong with the point and the act there succeeds. -/
theorem put_ok_iff {pos : Position} {p : Point} {r : Nat × Position} :
    pos.put p = .ok r ↔ pos.pointFault? p = none ∧ pos.putOn p = .ok r := by
  simp only [put]
  cases pos.pointFault? p with
  | none => simp
  | some refusal => simp

theorem placeFromHand_iff {pos : Position} {p : Point} {r : Nat × Position} :
    pos.placeFromHand p = .ok r ↔
      pos.state.inHand.get pos.state.side ≠ 0 ∧ r = pos.start.placeMan p := by
  simp only [placeFromHand]
  split
  · rename_i hzero
    simp [hzero]
  · rename_i hne
    simp [hne, eq_comm]

/-- What `put` can do. -/
inductive Putting (pos : Position) (p : Point) : Position → Prop
  /-- A man is placed from the hand. -/
  | placed : pos.state.phase = .ready ∨
        (pos.state.phase = .placing ∧ pos.state.action = .place ∧
          (pos.rule.mayMoveWhilePlacing = false ∨ pos.state.selected = none)) →
      Point.onBoard p = true → pos.contentAt p = .empty →
      pos.state.inHand.get pos.state.side ≠ 0 → Putting pos p (pos.start.placeMan p).2
  /-- An own man is picked up or dropped. -/
  | picked : pos.state.phase = .placing → pos.rule.mayMoveWhilePlacing = true →
      Point.onBoard p = true → pos.contentAt p = pos.state.side.man →
      Putting pos p (pos.toggle p)
  /-- The selected man is slid. -/
  | slid {a : Point} : pos.state.phase = .placing ∨ pos.state.phase = .moving →
      pos.state.action = .place → Point.onBoard p = true → pos.state.selected = some a →
      pos.Slidable a p → Putting pos p (pos.slideMan a p).2

/-- The inversion of `put`. -/
theorem putting_of_put {pos : Position} {p : Point} {r : Nat × Position}
    (hempty : pos.state.phase = .ready → pos.contentAt p = .empty) (h : pos.put p = .ok r) :
    pos.Putting p r.2 := by
  obtain ⟨hfit, hact⟩ := put_ok_iff.1 h
  obtain ⟨_, hp, hcontent⟩ := pointFault_eq_none_iff.1 hfit
  simp only [putOn] at hact
  split at hact
  · cases hact
  · rename_i hready
    obtain ⟨hhand, rfl⟩ := placeFromHand_iff.1 hact
    exact .placed (Or.inl hready) hp (hempty hready) hhand
  · rename_i hplacing haction
    split at hact
    -- a point that passes the check and is not empty holds an own man
    · rename_i hown
      simp only [Bool.and_eq_true, bne_iff_ne] at hown
      have hman : pos.contentAt p = pos.state.side.man := by
        rcases hcontent with hfree | ⟨_, hman⟩
        · exact absurd hfree hown.2
        · exact hman
      cases hact
      exact .picked hplacing hown.1 hp hman
    · rename_i hnot
      have hfree : pos.contentAt p = .empty := by
        rcases hcontent with hfree | ⟨hmay, _⟩
        · exact hfree
        · simpa [hmay] using hnot
      split at hact
      · obtain ⟨a, ha, hslide, rfl⟩ := slideSelected_iff.1 hact
        exact .slid (Or.inl hplacing) haction hp ha hslide
      · rename_i hidle
        obtain ⟨hhand, rfl⟩ := placeFromHand_iff.1 hact
        -- a man is placed only when none is picked up
        have hidle' : pos.rule.mayMoveWhilePlacing = false ∨ pos.state.selected = none := by
          cases hmay : pos.rule.mayMoveWhilePlacing with
          | false => exact Or.inl rfl
          | true => exact Or.inr (by simpa [hmay] using hidle)
        exact .placed (Or.inr ⟨hplacing, haction, hidle'⟩) hp hfree hhand
  · rename_i hmoving haction
    obtain ⟨a, ha, hslide, rfl⟩ := slideSelected_iff.1 hact
    exact .slid (Or.inr hmoving) haction hp ha hslide
  · cases hact
  · cases hact

/-- A game in which a man may be placed is taken to the placing phase, or is there already. -/
theorem start_of_placing {pos : Position}
    (h : pos.state.phase = .ready ∨ pos.state.phase = .placing) :
    pos.start = pos.mapState fun s => { s with phase := .placing } := by
  simp only [start]
  rcases h with h | h
  · rw [h]
  · have hsame : { pos.state with phase := .placing } = pos.state := by
      rw [← h]
    rw [h, mapState, hsame]

/-! ## Picking up -/

/-- Which men can be picked up, and when. -/
theorem select_ok_iff {pos next : Position} {p : Point} :
    pos.select p = .ok next ↔
      (pos.state.phase = .moving ∨
          (pos.state.phase = .placing ∧ pos.rule.mayMoveWhilePlacing = true)) ∧
        pos.state.action ≠ .remove ∧ Point.onBoard p = true ∧
        pos.contentAt p = pos.state.side.man ∧
        next = pos.pick p := by
  simp only [select]
  constructor
  · intro h
    split_ifs at h with hphase haction hp hman
    cases h
    refine ⟨?_, haction, by simpa using hp, Decidable.not_not.1 hman, rfl⟩
    apply Decidable.or_iff_not_imp_left.2
    simpa using hphase
  · rintro ⟨hphase, haction, hp, hman, rfl⟩
    have hphase' : (!(pos.state.phase == .moving
        || (pos.state.phase == .placing && pos.rule.mayMoveWhilePlacing))) = false := by
      simpa using Decidable.or_iff_not_imp_left.1 hphase
    simp [hphase', haction, hp, hman]

/-! ## Removing -/

/-- What a removal needs. -/
structure Removable (pos : Position) (p : Point) : Prop where
  inProgress : pos.state.phase = .placing ∨ pos.state.phase = .moving
  action : pos.state.action = .remove
  owes : pos.state.owed.get pos.state.side ≠ 0
  onBoard : Point.onBoard p = true
  man : pos.contentAt p = pos.removalTarget.man
  /-- A freeing removal takes only men that touch one of the side to move, or its own. -/
  touching : pos.isFreeingRemoval = true → pos.state.takesOwn.get pos.state.side = true ∨
    pos.touches p pos.state.side.colour = true
  /-- Any other removal spares men in mills, unless all are or the rule lifts the protection. -/
  unprotected : pos.isFreeingRemoval = false → pos.rule.mayRemoveFromMills = true ∨
    pos.millsAt p = 0 ∨ pos.allInMills pos.removalTarget = true

theorem touching_iff {pos : Position} {p : Point} :
    ¬ (pos.isFreeingRemoval && (!pos.state.takesOwn.get pos.state.side &&
        !pos.touches p pos.state.side.colour)) = true ↔
      (pos.isFreeingRemoval = true → pos.state.takesOwn.get pos.state.side = true ∨
        pos.touches p pos.state.side.colour = true) := by
  cases pos.isFreeingRemoval <;> cases pos.state.takesOwn.get pos.state.side <;> simp

theorem unprotected_iff {pos : Position} {p : Point} :
    ¬ (!pos.isFreeingRemoval && !pos.rule.mayRemoveFromMills && decide (0 < pos.millsAt p) &&
        !pos.allInMills pos.removalTarget) = true ↔
      (pos.isFreeingRemoval = false → pos.rule.mayRemoveFromMills = true ∨ pos.millsAt p = 0 ∨
        pos.allInMills pos.removalTarget = true) := by
  have hmills : decide (0 < pos.millsAt p) = true ↔ pos.millsAt p ≠ 0 := by
    rw [decide_eq_true_iff, Nat.pos_iff_ne_zero]
  cases pos.isFreeingRemoval <;> cases pos.rule.mayRemoveFromMills <;>
    cases pos.allInMills pos.removalTarget <;> simp [hmills]

/-- A removal has no fault if and only if it has all that it needs. -/
theorem removalFault_eq_none_iff {pos : Position} {p : Point} :
    pos.removalFault? p = none ↔ pos.Removable p := by
  rw [removalFault?]
  constructor
  · intro h
    split at h
    · cases h
    · cases h
    · rename_i hfinished hready
      simp only at h
      -- the checks that have been passed are what a removal needs, one by one
      split_ifs at h with haction howed hp hman htouch hmill
      constructor
      case inProgress =>
        cases hphase : pos.state.phase with
        | ready => exact absurd hphase hready
        | placing => exact Or.inl rfl
        | moving => exact Or.inr rfl
        | finished => exact absurd hphase hfinished
      case action => exact Decidable.not_not.1 haction
      case owes => exact howed
      case onBoard => simpa using hp
      case man => exact Decidable.not_not.1 hman
      case touching => exact touching_iff.1 htouch
      case unprotected => exact unprotected_iff.1 hmill
  · intro h
    have htouch := touching_iff.2 h.touching
    have hmill := unprotected_iff.2 h.unprotected
    have hchecks := And.intro h.owes h.onBoard
    rcases h.inProgress with hphase | hphase <;>
      simp [hphase, h.action, hchecks, h.man, htouch, hmill]

/-- A removal is accepted if `Removable` holds, and it takes the man on the point. -/
theorem remove_ok_iff {pos next : Position} {p : Point} :
    pos.remove p = .ok next ↔ pos.Removable p ∧
      next = (pos.takeMan p pos.removalTarget).afterTaking pos.removalTarget := by
  rw [← removalFault_eq_none_iff]
  simp only [remove]
  cases pos.removalFault? p with
  | none => simp [eq_comm]
  | some refusal => simp

/-! ## Any move -/

/-- What a move does before it is counted. -/
inductive Playing (pos : Position) (m : Move) : Position → Prop
  | placed {r : Nat × Position} : m.kind = .place → pos.release.put m.target = .ok r →
      Playing pos m r.2
  | slid {r : Nat × Position} : m.kind = .slide → pos.slide m.origin m.target = .ok r →
      Playing pos m r.2
  | removed {next : Position} : m.kind = .remove → pos.remove m.target = .ok next →
      Playing pos m next

/-- The inversion of `apply`: the move does what its kind says and is then counted. -/
theorem apply_ok_iff {pos next : Position} {m : Move} :
    pos.apply m = .ok next ↔ ∃ played, pos.Playing m played ∧ next = played.log m := by
  simp only [apply, map_eq_ok_iff]
  constructor
  · rintro ⟨played, hplayed, rfl⟩
    refine ⟨played, ?_, rfl⟩
    cases hkind : m.kind with
    | place =>
        rw [hkind] at hplayed
        obtain ⟨r, hput, rfl⟩ := map_eq_ok_iff.1 hplayed
        exact .placed hkind hput
    | slide =>
        rw [hkind] at hplayed
        obtain ⟨r, hslide, rfl⟩ := map_eq_ok_iff.1 hplayed
        exact .slid hkind hslide
    | remove =>
        rw [hkind] at hplayed
        exact .removed hkind hplayed
  · rintro ⟨played, hplayed, rfl⟩
    refine ⟨played, ?_, rfl⟩
    cases hplayed with
    | placed hkind hput =>
        rw [hkind]
        exact map_eq_ok_iff.2 ⟨_, hput, rfl⟩
    | slid hkind hslide =>
        rw [hkind]
        exact map_eq_ok_iff.2 ⟨_, hslide, rfl⟩
    | removed hkind hremove =>
        rw [hkind]
        exact hremove

theorem apply_place_iff {pos next : Position} {p : Point} (hp : Point.onBoard p = true) :
    pos.apply (.place p) = .ok next ↔
      ∃ r, pos.release.put p = .ok r ∧ next = r.2.log (.place p) := by
  obtain ⟨hkind, htarget⟩ := Move.place_spec hp
  simp only [apply, hkind, htarget, map_eq_ok_iff]
  constructor
  · rintro ⟨played, ⟨r, hput, rfl⟩, rfl⟩
    exact ⟨r, hput, rfl⟩
  · rintro ⟨r, hput, rfl⟩
    exact ⟨r.2, ⟨r, hput, rfl⟩, rfl⟩

theorem apply_slide_iff {pos next : Position} {a b : Point} (ha : Point.onBoard a = true)
    (hb : Point.onBoard b = true) :
    pos.apply (.slide a b) = .ok next ↔
      ∃ r, pos.slide a b = .ok r ∧ next = r.2.log (.slide a b) := by
  obtain ⟨hkind, horigin, htarget⟩ := Move.slide_spec ha hb
  simp only [apply, hkind, horigin, htarget, map_eq_ok_iff]
  constructor
  · rintro ⟨played, ⟨r, hslide, rfl⟩, rfl⟩
    exact ⟨r, hslide, rfl⟩
  · rintro ⟨r, hslide, rfl⟩
    exact ⟨r.2, ⟨r, hslide, rfl⟩, rfl⟩

theorem apply_remove_iff {pos next : Position} {p : Point} (hp : Point.onBoard p = true) :
    pos.apply (.remove p) = .ok next ↔
      ∃ removed, pos.remove p = .ok removed ∧ next = removed.log (.remove p) := by
  obtain ⟨hkind, htarget⟩ := Move.remove_spec hp
  simp only [apply, hkind, htarget, map_eq_ok_iff]
  exact exists_congr fun removed => and_congr_right fun _ => eq_comm

end Position

end Morris
