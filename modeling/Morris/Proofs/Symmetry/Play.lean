import Morris.Proofs.Accepted
import Morris.Proofs.Symmetry.Turn

/-!
# Moves seen through a symmetry

A move is accepted in a position if and only if its image is accepted in the mirrored position, and
the positions after it are mirrored again (`Position.Mirrored.apply`). The acts that a move is made
of are gone through one by one; `Position.Alike` says of two of them that both refuse or both are
accepted with related results.

The tables list the lines through a point in another order than the images of the lines through its
image. Where a line scores once, the lines are counted one after another, and their number may
depend on the order; the lines remembered and the answer to whether any was counted do not
(`Position.scoreLines_perm`). So the removals that a move earns are the same under a rule that is
`Rule.OrderFree`.
-/

set_option autoImplicit false

namespace Morris

/-- Lines score again, or a move earns one removal however many it fills, so that the order in which
they are counted does not matter. -/
def Rule.OrderFree (r : Rule) : Prop := ¬ (r.oneTimeMills = true ∧ r.mayRemoveMultiple = true)

namespace Position

/-! ## Counting lines -/

/-- After scoring, the points used are those used before and those of all the lines. -/
theorem contains_scoreLines (p : Point) (pairs : List Bitboard) (used : Bitboard) (q : Point) :
    (scoreLines p pairs used).2.contains q =
      (used.contains q || pairs.any fun pair => (pair.insert p).contains q) := by
  induction pairs generalizing used with
  | nil => simp [scoreLines]
  | cons pair pairs ih =>
      simp only [scoreLines, List.any_cons]
      split
      · rename_i hcovers
        rw [ih]
        cases hq : (pair.insert p).contains q with
        | false => rw [Bool.false_or]
        | true => rw [(Bitboard.covers_iff.1 hcovers).2 q hq, Bool.true_or, Bool.true_or]
      · rw [ih, Bitboard.contains_union, Bool.or_assoc]

/-- No line is counted if and only if all were scored with before. -/
theorem scoreLines_eq_zero (p : Point) (pairs : List Bitboard) (used : Bitboard) :
    (scoreLines p pairs used).1 = 0 ↔ ∀ pair ∈ pairs, used.covers (pair.insert p) = true := by
  induction pairs generalizing used with
  | nil => simp [scoreLines]
  | cons pair pairs ih =>
      simp only [scoreLines]
      split
      · rename_i hcovers
        simp [ih, hcovers]
      · rename_i hnot
        simp [hnot]

/-- Counted in another order, the same lines are remembered, and again some or none counted. -/
theorem scoreLines_perm (p : Point) {pairs pairs' : List Bitboard} (hperm : pairs.Perm pairs')
    (used : Bitboard) : (scoreLines p pairs used).2 = (scoreLines p pairs' used).2 ∧
      ((scoreLines p pairs used).1 = 0 ↔ (scoreLines p pairs' used).1 = 0) := by
  constructor
  · apply Bitboard.ext_contains
    intro q
    rw [contains_scoreLines, contains_scoreLines, hperm.any_eq]
  · simp only [scoreLines_eq_zero, hperm.mem_iff]

/-- The number of lines counted does depend on the order: a line whose other points were scored with
counts only before a line that brings in the point itself. -/
example :
    let pairs := [Bitboard.ofPoints [17, 23], Bitboard.ofPoints [8, 24]]
    (scoreLines 16 pairs (.ofPoints [8, 24])).1 = 1 ∧
      (scoreLines 16 pairs.reverse (.ofPoints [8, 24])).1 = 2 := by
  decide +kernel

/-- Counted in the same order, the images of lines are counted like the lines. -/
theorem scoreLines_map {t : Symmetry} {p : Point} (hp : Point.onBoard p = true)
    {pairs : List Bitboard} (hpairs : ∀ pair ∈ pairs, t.Carries pair (t.onSet pair))
    {used used' : Bitboard} (hused : t.Carries used used') :
    (scoreLines (t.onPoint p) (pairs.map t.onSet) used').1 = (scoreLines p pairs used).1 ∧
      t.Carries (scoreLines p pairs used).2
        (scoreLines (t.onPoint p) (pairs.map t.onSet) used').2 := by
  induction pairs generalizing used used' with
  | nil => exact ⟨rfl, hused⟩
  | cons pair pairs ih =>
      have hline := (hpairs pair List.mem_cons_self).insert hp
      have hrest : ∀ pair ∈ pairs, t.Carries pair (t.onSet pair) := fun r hr =>
        hpairs r (List.mem_cons_of_mem pair hr)
      simp only [scoreLines, List.map_cons, hused.covers hline]
      split
      · exact ih hrest hused
      · obtain ⟨hcount, hcarries⟩ := ih hrest (hused.union hline)
        exact ⟨congrArg (· + 1) hcount, hcarries⟩

/-- Two numbers of lines from which the same follows. -/
structure SameScore (rule : Rule) (n n' : Nat) : Prop where
  zero : n' = 0 ↔ n = 0
  earned : removalsEarned rule n' = removalsEarned rule n

namespace Mirrored

variable {t : Symmetry} {pos q : Position} {p a b : Point} (h : Mirrored t pos q)
include h

/-! ## What is remembered -/

/-- Positions stay mirrored if one man is picked up in the one and its image in the other. -/
theorem hold {o o' : Option Point} (ho : o' = o.map t.onPoint) :
    Mirrored t (pos.mapState fun s => { s with selected := o })
      (q.mapState fun s => { s with selected := o' }) where
  variant := h.variant
  plain := h.plain
  placed := { h.placed with selected := ho }

theorem release : Mirrored t pos.release q.release := h.hold rfl

theorem pick (p : Point) : Mirrored t (pos.pick p) (q.pick (t.onPoint p)) :=
  (plain_setAction .place).mirrored (h.hold (Option.map_some ..).symm)

theorem toggle (hp : Point.onBoard p = true) :
    Mirrored t (pos.toggle p) (q.toggle (t.onPoint p)) := by
  apply h.hold
  have hselected : q.state.selected = some (t.onPoint p) ↔ pos.state.selected = some p := by
    rw [h.selected]
    cases pos.state.selected with
    | none => simp
    | some a => simp [t.onPoint_eq_iff hp]
  simp only [hselected]
  split <;> rfl

theorem setLastMill (c : Side) {l l' : Option (Point × Point)} (hl : l' = l.map t.onEnds) :
    Mirrored t (pos.mapState fun s => { s with lastMill := s.lastMill.set c l })
      (q.mapState fun s => { s with lastMill := s.lastMill.set c l' }) where
  variant := h.variant
  plain := h.plain
  placed :=
    { h.placed with
      lastMill := by
        intro d
        show (q.state.lastMill.set c l').get d = ((pos.state.lastMill.set c l).get d).map t.onEnds
        by_cases hd : d = c
        · rw [hd, PerSide.get_set_self, PerSide.get_set_self, hl]
        · rw [PerSide.get_set_of_ne _ _ hd, PerSide.get_set_of_ne _ _ hd, h.lastMill] }

/-- Positions stay mirrored if a slide is remembered in the one and its image in the other. -/
theorem remember {l l' : Option (Point × Point)} (hl : l' = l.map t.onEnds) :
    Mirrored t (pos.remember l) (q.remember l') := by
  have hq : q.remember l' =
      q.mapState fun s => { s with lastMill := s.lastMill.set pos.state.side l' } := by
    rw [← h.side]
    rfl
  rw [hq]
  exact h.setLastMill pos.state.side hl

theorem setUsedLines (c : Side) {u u' : Bitboard} (hu : t.Carries u u') :
    Mirrored t (pos.mapState fun s => { s with usedLines := s.usedLines.set c u })
      (q.mapState fun s => { s with usedLines := s.usedLines.set c u' }) where
  variant := h.variant
  plain := h.plain
  placed :=
    { h.placed with
      usedLines := by
        intro d
        show t.Carries ((pos.state.usedLines.set c u).get d) ((q.state.usedLines.set c u').get d)
        by_cases hd : d = c
        · rw [hd, PerSide.get_set_self, PerSide.get_set_self]
          exact hu
        · rw [PerSide.get_set_of_ne _ _ hd, PerSide.get_set_of_ne _ _ hd]
          exact h.usedLines d }

theorem log {m m' : Move} (hm : m' = t.onMove m) : Mirrored t (pos.log m) (q.log m') where
  variant := h.variant
  plain := congrArg (fun s : State => { s with ply := s.ply + 1 }) h.plain
  placed := { h.placed with lastMove := hm }

/-! ## Closing mills -/

/-- A man and its image score alike, up to what the rule makes of the number, and leave mirrored
positions. -/
theorem scoreMills (hrule : pos.rule.OrderFree) (hp : Point.onBoard p = true) (c : Side) :
    SameScore pos.rule (pos.scoreMills p c).1 (q.scoreMills (t.onPoint p) c).1 ∧
      Mirrored t (pos.scoreMills p c).2 (q.scoreMills (t.onPoint p) c).2 := by
  simp only [Position.scoreMills, h.rule]
  split
  · rename_i honce
    -- the lines filled through the image are the images of those filled through the point
    have hfull : ((Board.partners pos.rule.hasDiagonals (t.onPoint p)).filter
        fun pair => (q.men c).covers pair).Perm
          (((Board.partners pos.rule.hasDiagonals p).filter
            fun pair => (pos.men c).covers pair).map t.onSet) :=
      filter_perm_map (t.partners_perm hp _) fun _ hpair =>
        (h.men c).covers (t.carries_partners hp hpair)
    obtain ⟨hcount, hcarries⟩ := scoreLines_map hp
      (fun pair hpair => t.carries_partners hp (List.mem_filter.1 hpair).1) (h.usedLines c)
    obtain ⟨hsame, hzero⟩ := scoreLines_perm (t.onPoint p) hfull (q.state.usedLines.get c)
    rw [hcount] at hzero
    rw [← hsame] at hcarries
    refine ⟨⟨hzero, ?_⟩, h.setUsedLines c hcarries⟩
    -- such a rule lets a move earn one removal only
    have hsingle : pos.rule.mayRemoveMultiple = false :=
      eq_false_of_ne_true fun hseveral => hrule ⟨honce, hseveral⟩
    simp only [removalsEarned, hsingle, Bool.false_eq_true, if_false]
  · rw [h.millsAt hp]
    exact ⟨⟨Iff.rfl, rfl⟩, h⟩

/-! ## Placing -/

theorem takeFromHand (n : Nat) : Mirrored t (pos.takeFromHand n) (q.takeFromHand n) := by
  have hrest := (plain_raidHand n).mirrored h
  have hended := hrest.endPlacing?
  simp only [Position.takeFromHand, h.inHand, h.side, hrest.rule]
  split
  · exact (plain_setAction .remove).mirrored hrest
  · generalize (pos.raidHand n).endPlacing? = ended, (q.raidHand n).endPlacing? = ended' at hended
    cases hended with
    | some hended => exact hended.settle
    | none =>
        dsimp only
        split
        · exact (plain_passTurn.mirrored hrest).settle
        · exact hrest.settle

theorem drop (hp : Point.onBoard p = true) (hfree : pos.contentAt p = .empty) :
    Mirrored t (pos.drop p) (q.drop (t.onPoint p)) := by
  have hcount : ∀ c : Side, Plain (mapState · fun s =>
      { s with
        inHand := s.inHand.update c (· - 1)
        onBoard := s.onBoard.update c (· + 1)
        quiet := 0 }) :=
    fun _ => ⟨fun _ => rfl, fun _ => rfl, fun _ => rfl⟩
  have hfilled := h.fill hp hfree (Side.man_ne_empty pos.state.side)
  have hcounted := (hcount pos.state.side).mirrored hfilled
  simp only [Position.drop, putMan, h.side]
  exact hcounted.release.setLastMill pos.state.side rfl

theorem afterDrop {n n' : Nat} (hscore : SameScore pos.rule n n') :
    Mirrored t (pos.afterDrop n) (q.afterDrop n') := by
  simp only [Position.afterDrop, h.rule, hscore.zero, h.totalOnBoard, hscore.earned]
  split
  · exact h.endPlacingOrPass.settle
  · split
    · split
      · exact h.resolveFullBoard
      · exact h.endPlacingOrPass.settle
    · split
      · exact h.takeFromHand _
      · exact h.takeFromHand _
      · exact (plain_oweRemovals _).mirrored h

/-- A placement and its image lead to mirrored positions. -/
theorem placeMan (hrule : pos.rule.OrderFree) (hp : Point.onBoard p = true)
    (hfree : pos.contentAt p = .empty) :
    Mirrored t (pos.placeMan p).2 (q.placeMan (t.onPoint p)).2 := by
  obtain ⟨hscore, hscored⟩ := (h.drop hp hfree).scoreMills hrule hp pos.state.side
  rw [← (sameTurn_scoreMills (pos.drop p) p pos.state.side).toSameMen.rule] at hscore
  simp only [Position.placeMan, h.side]
  exact hscored.afterDrop hscore

/-! ## Sliding -/

/-- Moving a man and moving its image keeps positions mirrored. -/
theorem shift (ha : Point.onBoard a = true) (hb : Point.onBoard b = true)
    (hfree : pos.contentAt b = .empty) :
    Mirrored t (pos.shift a b) (q.shift (t.onPoint a) (t.onPoint b)) := by
  have hcount : Plain (mapState · fun s => { s with quiet := s.quiet + 1 }) :=
    ⟨fun _ => rfl, fun _ => rfl, fun _ => rfl⟩
  have hfree' : (pos.vacate a).contentAt b = .empty := by
    rw [contentAt_vacate pos (Point.lt_of_onBoard ha), hfree, ite_self]
  have hmoved := (h.vacate ha).fill hb hfree' (Side.man_ne_empty pos.state.side)
  simp only [Position.shift, putMan, h.side]
  exact (hcount.mirrored hmoved).release

theorem afterShift {n n' : Nat} (hscore : SameScore pos.rule n n') (opened : Nat) :
    Mirrored t (pos.afterShift a b opened n)
      (q.afterShift (t.onPoint a) (t.onPoint b) opened n') := by
  simp only [Position.afterShift, h.rule, hscore.zero, hscore.earned]
  split
  · exact (plain_passTurn.mirrored (h.remember rfl)).settle
  · apply (plain_oweRemovals _).mirrored
    split
    · apply h.remember
      split <;> rfl
    · exact h

/-- A slide and its image lead to mirrored positions. -/
theorem slideMan (hrule : pos.rule.OrderFree) (ha : Point.onBoard a = true)
    (hb : Point.onBoard b = true) (hfree : pos.contentAt b = .empty) :
    Mirrored t (pos.slideMan a b).2 (q.slideMan (t.onPoint a) (t.onPoint b)).2 := by
  have hopened := h.linesWithin ha (((h.men pos.state.side).erase ha).insert hb)
  obtain ⟨hscore, hscored⟩ := (h.shift ha hb hfree).scoreMills hrule hb pos.state.side
  rw [← (sameTurn_scoreMills (pos.shift a b) b pos.state.side).toSameMen.rule] at hscore
  simp only [Position.slideMan, h.side, hopened]
  exact hscored.afterShift hscore _

/-! ## Removing -/

/-- Taking off a man and its image keeps positions mirrored. -/
theorem clearPoint (hp : Point.onBoard p = true) :
    Mirrored t (pos.clearPoint p) (q.clearPoint (t.onPoint p)) := by
  have hvacated := h.vacate hp
  simp only [Position.clearPoint, h.rule, h.phase]
  split
  · apply hvacated.fill hp
    · rw [contentAt_vacate pos (Point.lt_of_onBoard hp), if_pos rfl]
    · decide
  · exact hvacated

theorem takeMan (hp : Point.onBoard p = true) (target : Side) :
    Mirrored t (pos.takeMan p target) (q.takeMan (t.onPoint p) target) := by
  have hcount : ∀ c : Side, Plain fun pos => (pos.mapState fun s =>
      { s with
        quiet := 0
        onBoard := s.onBoard.update target (· - 1)
        owed := s.owed.set c (s.owed.get c - 1)
        takesOwn :=
          if s.owed.get c - 1 = 0 then s.takesOwn.set c false else s.takesOwn }).refreshKey :=
    fun _ => ⟨fun _ => rfl, fun _ => rfl, fun _ => rfl⟩
  have hcleared := h.clearPoint hp
  simp only [Position.takeMan, h.side]
  generalize pos.clearPoint p = cleared, q.clearPoint (t.onPoint p) = cleared' at hcleared ⊢
  exact (hcount pos.state.side).mirrored hcleared.release

/-- The turn goes on alike after the last removal. -/
theorem afterRemovals : Mirrored t pos.afterRemovals q.afterRemovals := by
  have hended := h.endPlacing?
  simp only [Position.afterRemovals, h.freesMover]
  generalize pos.endPlacing? = ended, q.endPlacing? = ended' at hended
  cases hended with
  | some hended => exact hended
  | none =>
      dsimp only
      split
      · exact plain_keepTurn.mirrored ((plain_frees false).mirrored h)
      · exact plain_passTurn.mirrored h

/-- What follows a removal is the same in both positions. -/
theorem afterTaking (target : Side) :
    Mirrored t (pos.afterTaking target) (q.afterTaking target) := by
  have hturned := h.afterRemovals
  simp only [Position.afterTaking, h.isBeaten, h.owed, h.side, hturned.owed, hturned.side,
    hturned.inHand]
  split
  · exact (plain_finish _ _).mirrored h
  · split
    · exact h
    · split
      · exact hturned.settle
      · exact hturned

/-! ## Acts -/

theorem start (hphase : pos.state.phase = .ready ∨ pos.state.phase = .placing) :
    Mirrored t pos.start q.start := by
  have hbegin : Plain (mapState · fun s => { s with phase := .placing }) :=
    ⟨fun _ => rfl, fun _ => rfl, fun _ => rfl⟩
  rw [start_of_placing hphase, start_of_placing (h.phase ▸ hphase)]
  exact hbegin.mirrored h

end Mirrored

/-- Two acts of which both refuse, or both are accepted with related results. -/
inductive Alike {α β : Type} (R : α → β → Prop) : Except Refusal α → Except Refusal β → Prop
  | refused (e e' : Refusal) : Alike R (.error e) (.error e')
  | accepted {a : α} {b : β} : R a b → Alike R (.ok a) (.ok b)

section Alike

variable {α β γ δ : Type} {R : α → β → Prop} {S : γ → δ → Prop} {x : Except Refusal α}
  {y : Except Refusal β}

theorem Alike.map {f : α → γ} {g : β → δ} (h : Alike R x y)
    (hfg : ∀ a b, R a b → S (f a) (g b)) : Alike S (x.map f) (y.map g) := by
  cases h with
  | refused e e' => exact .refused e e'
  | accepted hab => exact .accepted (hfg _ _ hab)

/-- Two steps are alike if the first are, and the second wherever the first succeed. -/
theorem Alike.bind {f : α → Except Refusal γ} {g : β → Except Refusal δ} (h : Alike R x y)
    (hfg : ∀ a b, x = .ok a → R a b → Alike S (f a) (g b)) : Alike S (x.bind f) (y.bind g) := by
  cases h with
  | refused e e' => exact .refused e e'
  | accepted hab => exact hfg _ _ rfl hab

/-- Acts behind a check are alike if both checks find a fault or neither does. -/
theorem Alike.checked {fault fault' : Option Refusal} (hfault : fault' = none ↔ fault = none)
    (h : fault = none → Alike R x y) :
    Alike R (fault.elim x .error) (fault'.elim y .error) := by
  cases fault with
  | none =>
      rw [hfault.2 rfl]
      exact h rfl
  | some e =>
      cases fault' with
      | none => cases hfault.1 rfl
      | some e' => exact .refused e e'

theorem Alike.exists_of_ok {a : α} (h : Alike R (.ok a) y) : ∃ b, y = .ok b ∧ R a b := by
  cases h with
  | accepted hab => exact ⟨_, rfl, hab⟩

/-- Where results that correspond are images, the one result is the image of the other. -/
theorem Alike.toOption_eq {f : α → β} (h : Alike R x y)
    (hf : ∀ a b, x = .ok a → y = .ok b → R a b → b = f a) :
    y.toOption = x.toOption.map f := by
  cases h with
  | refused e e' => rfl
  | accepted hab => exact congrArg some (hf _ _ rfl rfl hab)

end Alike

theorem put_eq_elim (pos : Position) (p : Point) :
    pos.put p = (pos.pointFault? p).elim (pos.putOn p) .error := by
  simp only [put]
  cases pos.pointFault? p <;> rfl

theorem remove_eq_elim (pos : Position) (p : Point) :
    pos.remove p = (pos.removalFault? p).elim
      (.ok ((pos.takeMan p pos.removalTarget).afterTaking pos.removalTarget)) .error := by
  simp only [remove]
  cases pos.removalFault? p <;> rfl

namespace Mirrored

variable {t : Symmetry} {pos q : Position} {p a b : Point} (h : Mirrored t pos q)
include h

theorem slideSelected (hrule : pos.rule.OrderFree) (hb : Point.onBoard b = true) :
    Alike (fun r r' => Mirrored t r.2 r'.2) (pos.slideSelected b)
      (q.slideSelected (t.onPoint b)) := by
  simp only [Position.slideSelected, h.selected, h.side, h.rule, h.canFly]
  cases pos.state.selected with
  | none => exact .refused _ _
  | some a =>
      simp only [Option.map_some, h.content]
      by_cases hman : pos.contentAt a = pos.state.side.man
      · have ha : Point.onBoard a = true := by
          apply h.agrees.onBoard_of_content
          show pos.contentAt a ≠ .empty
          rw [hman]
          exact Side.man_ne_empty _
        have hadjacent : Board.isAdjacent pos.rule.hasDiagonals (t.onPoint a) (t.onPoint b) =
            Board.isAdjacent pos.rule.hasDiagonals a b := (t.carries_around ha _).contains b hb
        simp only [hadjacent, h.returnsToMill ha hb]
        split_ifs with _ hfree
        · exact .refused _ _
        · exact .refused _ _
        · exact .refused _ _
        · exact .refused _ _
        · exact .accepted (h.slideMan hrule ha hb (Decidable.not_not.1 hfree))
      · rw [if_pos hman, if_pos hman]
        exact .refused _ _

theorem placeFromHand (hrule : pos.rule.OrderFree)
    (hphase : pos.state.phase = .ready ∨ pos.state.phase = .placing)
    (hp : Point.onBoard p = true) (hfree : pos.contentAt p = .empty) :
    Alike (fun r r' => Mirrored t r.2 r'.2) (pos.placeFromHand p)
      (q.placeFromHand (t.onPoint p)) := by
  simp only [Position.placeFromHand, h.inHand, h.side]
  split
  · exact .refused _ _
  · apply Alike.accepted
    have hstarted := h.start hphase
    -- beginning the game changes neither the rule nor the men
    rw [start_of_placing hphase] at hstarted ⊢
    exact hstarted.placeMan hrule hp hfree

theorem putOn (hrule : pos.rule.OrderFree) (hp : Point.onBoard p = true)
    (hready : pos.state.phase = .ready → pos.contentAt p = .empty)
    (hfit : pos.contentAt p = .empty ∨
      (pos.rule.mayMoveWhilePlacing = true ∧ pos.contentAt p = pos.state.side.man)) :
    Alike (fun r r' => Mirrored t r.2 r'.2) (pos.putOn p) (q.putOn (t.onPoint p)) := by
  simp only [Position.putOn, h.phase, h.action, h.rule, h.content, h.selected, Option.isSome_map]
  split
  · exact .refused _ _
  · rename_i hphase
    exact h.placeFromHand hrule (Or.inl hphase) hp (hready hphase)
  · rename_i hphase _
    split
    · exact .accepted (h.toggle hp)
    · rename_i hnot
      -- a point that is neither picked up nor dropped is empty
      have hfree : pos.contentAt p = .empty := by
        rcases hfit with hfree | ⟨hmay, _⟩
        · exact hfree
        · simpa [hmay] using hnot
      split
      · exact h.slideSelected hrule hp
      · exact h.placeFromHand hrule (Or.inr hphase) hp hfree
  · exact h.slideSelected hrule hp
  · exact .refused _ _
  · exact .refused _ _

/-- Pointing at a point and at its image is accepted or refused alike, with mirrored outcomes. -/
theorem put (hrule : pos.rule.OrderFree)
    (hready : pos.state.phase = .ready → pos.contentAt p = .empty) :
    Alike (fun r r' => Mirrored t r.2 r'.2) (pos.put p) (q.put (t.onPoint p)) := by
  have hfault : q.pointFault? (t.onPoint p) = none ↔ pos.pointFault? p = none := by
    rw [pointFault_eq_none_iff, pointFault_eq_none_iff, h.phase, t.onBoard_onPoint_eq, h.content,
      h.rule, h.side]
  rw [put_eq_elim, put_eq_elim]
  refine .checked hfault fun hnone => ?_
  obtain ⟨_, hp, hfit⟩ := pointFault_eq_none_iff.1 hnone
  exact h.putOn hrule hp hready hfit

theorem select (p : Point) :
    Alike (Mirrored t) (pos.select p) (q.select (t.onPoint p)) := by
  simp only [Position.select, h.phase, h.rule, h.action, t.onBoard_onPoint_eq, h.content, h.side]
  split_ifs
  · exact .refused _ _
  · exact .refused _ _
  · exact .refused _ _
  · exact .refused _ _
  · exact .accepted (h.pick p)

/-- A slide and its image are accepted or refused alike, with mirrored outcomes. -/
theorem slide (hrule : pos.rule.OrderFree) (a b : Point) :
    Alike (fun r r' => Mirrored t r.2 r'.2) (pos.slide a b)
      (q.slide (t.onPoint a) (t.onPoint b)) := by
  apply (h.select a).bind
  intro picked picked' hpicked hmirrored
  obtain ⟨hphase, _, _, _, rfl⟩ := select_ok_iff.1 hpicked
  apply hmirrored.put hrule
  -- a man is picked up only once the game has begun
  intro hready
  rw [show pos.state.phase = .ready from hready] at hphase
  rcases hphase with hphase | ⟨hphase, _⟩ <;> cases hphase

/-- A removal can be made if its image can. -/
theorem removalFault? (p : Point) :
    q.removalFault? (t.onPoint p) = none ↔ pos.removalFault? p = none := by
  cases hp : Point.onBoard p with
  | false =>
      have himage := (t.onBoard_onPoint_eq p).trans hp
      rw [removalFault_eq_none_iff, removalFault_eq_none_iff]
      refine ⟨fun hr => ?_, fun hr => ?_⟩
      · exact absurd hr.onBoard (by rw [himage]; decide)
      · exact absurd hr.onBoard (by rw [hp]; decide)
  | true =>
      simp only [Position.removalFault?, h.phase, h.side, h.takesOwn, h.removalTarget, h.action,
        h.owed, t.onBoard_onPoint_eq, h.content, h.isFreeingRemoval, h.touches hp, h.rule,
        h.millsAt hp, h.allInMills]
      split
      · simp
      · simp
      · split_ifs <;> simp

/-- A removal and its image are accepted or refused alike, with mirrored outcomes. -/
theorem remove (p : Point) : Alike (Mirrored t) (pos.remove p) (q.remove (t.onPoint p)) := by
  rw [remove_eq_elim, remove_eq_elim, h.removalTarget]
  refine .checked (h.removalFault? p) fun hnone => ?_
  have hp := (removalFault_eq_none_iff.1 hnone).onBoard
  exact .accepted ((h.takeMan hp _).afterTaking _)

/-! ## Moves -/

/-- A move and its image are both refused or both accepted, and then the positions after them are
mirrored. Before the first move the board has to be empty. -/
theorem apply (hrule : pos.rule.OrderFree)
    (hready : pos.state.phase = .ready → ∀ p, pos.contentAt p = .empty) {m : Move}
    (hm : m.OnBoard) : Alike (Mirrored t) (pos.apply m) (q.apply (t.onMove m)) := by
  cases hm with
  | @place p hp =>
      have hmove := t.onMove_place hp
      obtain ⟨hkind, htarget⟩ := Move.place_spec hp
      obtain ⟨hkind', htarget'⟩ := Move.place_spec (t.onBoard_onPoint hp)
      have hput := h.release.put hrule fun hphase => hready hphase p
      rw [hmove]
      simp only [Position.apply, hkind, htarget, hkind', htarget']
      exact (hput.map fun _ _ hr => hr).map fun _ _ hr => hr.log hmove.symm
  | @slide a b ha hb hne =>
      have hmove := t.onMove_slide ha hb hne
      obtain ⟨hkind, horigin, htarget⟩ := Move.slide_spec ha hb
      obtain ⟨hkind', horigin', htarget'⟩ :=
        Move.slide_spec (t.onBoard_onPoint ha) (t.onBoard_onPoint hb)
      rw [hmove]
      simp only [Position.apply, hkind, horigin, htarget, hkind', horigin', htarget']
      exact ((h.slide hrule a b).map fun _ _ hr => hr).map fun _ _ hr => hr.log hmove.symm
  | @remove p hp =>
      have hmove := t.onMove_remove hp
      obtain ⟨hkind, htarget⟩ := Move.remove_spec hp
      obtain ⟨hkind', htarget'⟩ := Move.remove_spec (t.onBoard_onPoint hp)
      rw [hmove]
      simp only [Position.apply, hkind, htarget, hkind', htarget']
      exact (h.remove p).map fun _ _ hr => hr.log hmove.symm

end Mirrored

end Position

end Morris
