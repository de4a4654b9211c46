import Morris.Proofs.Accepted

/-!
# What an accepted move does, case by case

A man can be put down in several ways: by pointing at a point, with or without another man held, or
by a move, which lets go of a held man first. Whichever way is taken, one of three things happens. A
man comes from the hand, a man is slid, or a man is only picked up or let go (`Position.SetDown`).
With the removal of a man these are the cases of an accepted move (`Position.Step`).

What holds of all games of accepted moves is proved along these cases (`Sound.exists_step`); which
man was held before does not matter to any of them (`slideMan_pick`).
-/

set_option autoImplicit false

namespace Morris.Position

variable {pos next : Position} {p : Point} {r : Nat × Position}

/-! ## The men move, and mills are scored -/

/-- The same position in the placing phase. -/
def begun (pos : Position) : Position := pos.mapState fun s => { s with phase := .placing }

theorem Sound.begun (h : pos.Sound)
    (hphase : pos.state.phase = .ready ∨ pos.state.phase = .placing) : pos.begun.Sound := by
  have hsound := h.start
  rw [start_of_placing hphase] at hsound
  exact hsound

/-- A placement puts the man down, scores its mills and draws the consequences. -/
theorem Consistent.placeMan_spec (h : pos.Consistent) (hp : Point.onBoard p = true)
    (hfree : pos.contentAt p = .empty) (hhand : pos.state.inHand.get pos.state.side ≠ 0) :
    ∃ n closed, (pos.drop p).scoreMills p pos.state.side = (n, closed) ∧
      pos.placeMan p = (n, closed.afterDrop n) ∧ (pos.drop p).SameTurn closed ∧
        closed.Consistent :=
  ⟨_, _, rfl, rfl, sameTurn_scoreMills _ p _, (h.drop hp hfree hhand).scoreMills p _⟩

/-- A slide moves the man, scores its mills and draws the consequences. -/
theorem Consistent.slideMan_spec (h : pos.Consistent) {a b : Point} (hb : Point.onBoard b = true)
    (hslide : pos.Slidable a b) :
    ∃ n closed opened, (pos.shift a b).scoreMills b pos.state.side = (n, closed) ∧
      pos.slideMan a b = (n, closed.afterShift a b opened n) ∧ (pos.shift a b).SameTurn closed ∧
        closed.Consistent :=
  ⟨_, _, _, rfl, rfl, sameTurn_scoreMills _ b _,
    (h.shift hslide.man hb hslide.free).scoreMills b _⟩

/-! ## Held men are forgotten -/

theorem scoreMills_action (q : Position) (action : Action) (p : Point) (c : Side) :
    (q.mapState fun s => { s with action := action }).scoreMills p c =
      ((q.scoreMills p c).1,
        (q.scoreMills p c).2.mapState fun s => { s with action := action }) := by
  have hrule : (q.mapState fun s => { s with action := action }).rule = q.rule := rfl
  cases hone : q.rule.oneTimeMills with
  | true =>
      simp only [scoreMills, hrule, hone, if_true]
      rfl
  | false =>
      simp only [scoreMills, hrule, hone, Bool.false_eq_true, if_false]
      rfl

/-- Whatever follows a slide sets the action anew. -/
theorem afterShift_action (q : Position) (action : Action) (a b : Point) (opened n : Nat) :
    (q.mapState fun s => { s with action := action }).afterShift a b opened n =
      q.afterShift a b opened n := by
  have hrule : (q.mapState fun s => { s with action := action }).rule = q.rule := rfl
  simp only [afterShift, hrule]
  split
  · rfl
  · split <;> rfl

theorem slideMan_pick (pos : Position) (a b : Point) :
    (pos.pick a).slideMan a b = pos.slideMan a b := by
  have hshift : (pos.pick a).shift a b =
      (pos.shift a b).mapState fun s => { s with action := .place } := rfl
  have hside : (pos.pick a).state.side = pos.state.side := rfl
  simp only [slideMan, hshift, hside]
  rw [scoreMills_action, afterShift_action]
  rfl

/-! ## Putting a man down -/

/-- What pointing at a point or a slide to it does, and the number of mills it returns. -/
inductive SetDown (pos : Position) (p : Point) : Nat × Position → Prop
  /-- A man is placed from the hand. -/
  | placed : pos.state.phase = .ready ∨
        (pos.state.phase = .placing ∧ pos.state.action = .place) →
      Point.onBoard p = true → pos.contentAt p = .empty →
      pos.state.inHand.get pos.state.side ≠ 0 → SetDown pos p (pos.begun.placeMan p)
  /-- A man is only picked up or let go. -/
  | held (s : Option Point) : pos.state.phase = .placing → pos.state.action = .place →
      pos.rule.mayMoveWhilePlacing = true → pos.contentAt p = pos.state.side.man →
      SetDown pos p (0, pos.mapState fun st => { st with selected := s })
  /-- A man is slid. -/
  | slid {a : Point} : pos.state.phase = .moving ∨
        (pos.state.phase = .placing ∧ pos.rule.mayMoveWhilePlacing = true) →
      pos.state.action ≠ .remove → Point.onBoard p = true → pos.Slidable a p →
      SetDown pos p (pos.slideMan a p)

/-- Who places a man from the hand is asked to. -/
theorem Sound.asked_to_place (h : pos.Sound)
    (hphase : pos.state.phase = .ready ∨
      (pos.state.phase = .placing ∧ pos.state.action = .place)) :
    pos.state.action = .place ∧ pos.state.phase ≠ .finished := by
  rcases hphase with hready | ⟨hplacing, haction⟩
  · exact ⟨(h.stage.untouched_of_ready hready).action, by rw [hready]; decide⟩
  · exact ⟨haction, by rw [hplacing]; decide⟩

/-- A game in which a man is slid goes on. -/
theorem goes_of_sliding
    (hphase : pos.state.phase = .moving ∨
      (pos.state.phase = .placing ∧ pos.rule.mayMoveWhilePlacing = true)) :
    pos.state.phase ≠ .finished := by
  rcases hphase with hmoving | ⟨hplacing, _⟩
  · rw [hmoving]
    decide
  · rw [hplacing]
    decide

theorem Removable.goes (h : pos.Removable p) : pos.state.phase ≠ .finished := by
  rcases h.inProgress with hphase | hphase <;> rw [hphase] <;> decide

theorem Sound.setDown_of_put (h : pos.Sound) (hput : pos.put p = .ok r) : pos.SetDown p r := by
  obtain ⟨hfit, hact⟩ := put_ok_iff.1 hput
  obtain ⟨_, hp, hcontent⟩ := pointFault_eq_none_iff.1 hfit
  simp only [putOn] at hact
  split at hact
  · cases hact
  · rename_i hready
    obtain ⟨hhand, rfl⟩ := placeFromHand_iff.1 hact
    rw [start_of_placing (Or.inl hready)]
    exact .placed (Or.inl hready) hp ((h.stage.untouched_of_ready hready).content p) hhand
  · rename_i hplacing haction
    split at hact
    -- a point that passes the check and is not empty holds an own man
    · rename_i hown
      simp only [Bool.and_eq_true, bne_iff_ne] at hown
      have hman : pos.contentAt p = pos.state.side.man := by
        rcases hcontent with hfree | ⟨_, hman⟩
        · exact absurd hfree hown.2
        · exact hman
      cases hact
      exact .held _ hplacing haction hown.1 hman
    · rename_i hnot
      have hfree : pos.contentAt p = .empty := by
        rcases hcontent with hfree | ⟨hmay, _⟩
        · exact hfree
        · simpa [hmay] using hnot
      split at hact
      · rename_i hheld
        rw [Bool.and_eq_true] at hheld
        obtain ⟨a, _, hslide, rfl⟩ := slideSelected_iff.1 hact
        exact .slid (Or.inr ⟨hplacing, hheld.1⟩) (by rw [haction]; decide) hp hslide
      · obtain ⟨hhand, rfl⟩ := placeFromHand_iff.1 hact
        rw [start_of_placing (Or.inr hplacing)]
        exact .placed (Or.inr ⟨hplacing, haction⟩) hp hfree hhand
  · rename_i hmoving haction
    obtain ⟨a, _, hslide, rfl⟩ := slideSelected_iff.1 hact
    exact .slid (Or.inl hmoving) (by rw [haction]; decide) hp hslide
  · cases hact
  · cases hact

theorem Sound.setDown_of_release (h : pos.Sound) (hput : pos.release.put p = .ok r) :
    pos.SetDown p r := by
  have hsound : pos.release.Sound := h.of_sameTurn (sameTurn_release pos)
  cases hsound.setDown_of_put hput with
  | placed hphase hp hfree hhand => exact .placed hphase hp hfree hhand
  | held s hplacing haction hmay hman => exact .held s hplacing haction hmay hman
  | slid hphase haction hp hslide =>
      exact .slid hphase haction hp ⟨hslide.man, hslide.free, hslide.reach, hslide.back⟩

theorem Sound.setDown_of_slide (h : pos.Sound) {a : Point} (hslide : pos.slide a p = .ok r) :
    pos.SetDown p r := by
  obtain ⟨picked, hselect, hput⟩ := bind_eq_ok_iff.1 hslide
  obtain ⟨hphase, haction, _, _, rfl⟩ := select_ok_iff.1 hselect
  obtain ⟨hfit, hact⟩ := put_ok_iff.1 hput
  obtain ⟨_, hp, hcontent⟩ := pointFault_eq_none_iff.1 hfit
  have hslid : (pos.pick a).slideSelected p = .ok r → pos.SetDown p r := by
    intro hselected
    obtain ⟨b, hb, hslidable, rfl⟩ := slideSelected_iff.1 hselected
    cases hb
    rw [slideMan_pick]
    exact .slid hphase haction hp
      ⟨hslidable.man, hslidable.free, hslidable.reach, hslidable.back⟩
  have hplace : (pos.pick a).state.action = .place := rfl
  -- only while placing can the point named second be a man of the same side: then it is picked up
  rcases hphase with hmoving | ⟨hplacing, hmay⟩
  · have hmoving' : (pos.pick a).state.phase = .moving := hmoving
    simp only [putOn, hmoving', hplace] at hact
    exact hslid hact
  · have hplacing' : (pos.pick a).state.phase = .placing := hplacing
    have hmay' : (pos.pick a).rule.mayMoveWhilePlacing = true := hmay
    have hheld : (pos.pick a).state.selected.isSome = true := rfl
    simp only [putOn, hplacing', hplace, hmay', hheld, Bool.true_and, if_true] at hact
    split at hact
    · rename_i hown
      rw [bne_iff_ne] at hown
      cases hact
      have hmustPlace := h.stage.place_of_placing hplacing haction
      have htoggle : ∃ s, (pos.pick a).toggle p =
          pos.mapState fun st => { st with selected := s } := by
        refine ⟨if some a = some p then none else some p, ?_⟩
        obtain ⟨v, s⟩ := pos
        show Position.mk v { s with action := .place, selected := _ } = Position.mk v _
        rw [← show s.action = .place from hmustPlace]
        rfl
      obtain ⟨s, hs⟩ := htoggle
      rw [hs]
      exact .held s hplacing hmustPlace hmay ((hcontent.resolve_left hown).2)
    · exact hslid hact

/-- A man can be put down by pointing at a point, before or after letting go of a held man, or by a
slide. -/
theorem Sound.setDown_of_ok (h : pos.Sound)
    (hput : pos.put p = .ok r ∨ pos.release.put p = .ok r ∨ ∃ a, pos.slide a p = .ok r) :
    pos.SetDown p r := by
  rcases hput with hput | hput | ⟨a, hslide⟩
  · exact h.setDown_of_put hput
  · exact h.setDown_of_release hput
  · exact h.setDown_of_slide hslide

theorem Sound.setDown (h : pos.Sound) (hdown : pos.SetDown p r) : r.2.Sound := by
  cases hdown with
  | placed hphase hp hfree hhand =>
      have hbegun := h.begun (hphase.imp_right And.left)
      exact sound_placeMan hbegun.toConsistent rfl (h.asked_to_place hphase).1 hp hfree hhand
  | held s hplacing _ _ _ =>
      have hturned := h.stage.turned_of (Or.inl hplacing)
      exact ⟨h.of_sameMen ⟨rfl, rfl, rfl⟩ h.key,
        .going ⟨hturned.1.inProgress, hturned.1.placing, hturned.1.owes⟩ hturned.2⟩
  | slid hphase haction hp hslide =>
      have hphase' : pos.state.phase = .placing ∨ pos.state.phase = .moving :=
        hphase.symm.imp_left And.left
      exact sound_slideMan h.toConsistent hphase' (h.stage.quiet_lt hphase' haction) hslide.man hp
        hslide.free

/-- Nobody puts a man down who is to remove one, or after the end. -/
theorem Sound.idle_of_setDown (h : pos.Sound) (hdown : pos.SetDown p r) :
    pos.state.action ≠ .remove ∧ pos.state.phase ≠ .finished := by
  cases hdown with
  | placed hphase _ _ _ =>
      obtain ⟨hplace, hgoes⟩ := h.asked_to_place hphase
      exact ⟨by rw [hplace]; decide, hgoes⟩
  | held s hplacing haction _ _ =>
      exact ⟨by rw [haction]; decide, by rw [hplacing]; decide⟩
  | slid hphase haction _ _ => exact ⟨haction, goes_of_sliding hphase⟩

theorem SetDown.rule (h : pos.SetDown p r) : r.2.rule = pos.rule := by
  cases h with
  | placed _ _ _ _ => exact (uncounted_placeMan pos.begun p).rule
  | held _ _ _ _ _ => rfl
  | slid _ _ _ _ => exact (uncounted_slideMan pos _ p).rule

/-! ## Any move -/

/-- What an accepted move does before it is counted. -/
inductive Step (pos : Position) (m : Move) : Nat × Position → Prop
  | down {r : Nat × Position} : m.kind ≠ .remove → pos.SetDown m.target r → Step pos m r
  | removed : m.kind = .remove → pos.Removable m.target →
      Step pos m (0, (pos.takeMan m.target pos.removalTarget).afterTaking pos.removalTarget)

/-- Every accepted move is one of the cases. -/
theorem Sound.exists_step (h : pos.Sound) {m : Move} (hnext : pos.apply m = .ok next) :
    ∃ r, pos.Step m r ∧ next = r.2.log m := by
  obtain ⟨played, hplayed, rfl⟩ := apply_ok_iff.1 hnext
  cases hplayed with
  | placed hkind hput =>
      exact ⟨_, .down (by rw [hkind]; decide) (h.setDown_of_release hput), rfl⟩
  | slid hkind hslide =>
      exact ⟨_, .down (by rw [hkind]; decide) (h.setDown_of_slide hslide), rfl⟩
  | removed hkind hremove =>
      obtain ⟨hremovable, rfl⟩ := remove_ok_iff.1 hremove
      exact ⟨_, .removed hkind hremovable, rfl⟩

end Morris.Position
