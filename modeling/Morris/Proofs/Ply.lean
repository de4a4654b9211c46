import Morris.Proofs.Acts

/-!
# Counting moves

None of the acts that a move is made of touches the variant or the count of moves
(`Position.Uncounted`): not the movement of the men, not the changes of turn, not the end of
placing, and not the rules that end the game. A move is counted when it is over. So every accepted
move keeps the variant (`Position.variant_apply`), adds exactly one to the count and is remembered
as the last one (`Position.counted_apply`). Nothing is asked of the position.

What follows the movement of the men also leaves alone what the state remembers of points, the last
mill after a slide apart (`Position.Unremarked`).
-/

set_option autoImplicit false

namespace Morris

/-- What a state remembers of points: the man picked up, the last mills, the lines scored with and
the last move. -/
structure Memory where
  selected : Option Point
  lastMill : PerSide (Option (Point × Point))
  usedLines : PerSide Bitboard
  lastMove : Move

/-- What a state remembers of points. -/
def State.memory (s : State) : Memory := ⟨s.selected, s.lastMill, s.usedLines, s.lastMove⟩

namespace Position

variable {pos mid next : Position}

/-- The variant is the same, and no move has been counted. -/
structure Uncounted (pos next : Position) : Prop where
  variant : next.variant = pos.variant
  ply : next.state.ply = pos.state.ply

/-- No move has been counted, and nothing remembered or forgotten. -/
structure Unremarked (pos next : Position) : Prop extends Uncounted pos next where
  memory : next.state.memory = pos.state.memory

theorem Uncounted.rule (h : pos.Uncounted next) : next.rule = pos.rule :=
  congrArg Variant.rule h.variant

/-- Two changes that count nothing count nothing together. -/
theorem Uncounted.trans (h : pos.Uncounted mid) (h' : mid.Uncounted next) : pos.Uncounted next :=
  ⟨h'.variant.trans h.variant, h'.ply.trans h.ply⟩

/-- A change that plainly counts nothing may come first. -/
theorem Uncounted.after (h : mid.Uncounted next) (hvariant : mid.variant = pos.variant)
    (hply : mid.state.ply = pos.state.ply) : pos.Uncounted next :=
  Uncounted.trans ⟨hvariant, hply⟩ h

theorem Unremarked.refl (pos : Position) : pos.Unremarked pos := ⟨⟨rfl, rfl⟩, rfl⟩

theorem Unremarked.trans (h : pos.Unremarked mid) (h' : mid.Unremarked next) :
    pos.Unremarked next :=
  ⟨h.toUncounted.trans h'.toUncounted, h'.memory.trans h.memory⟩

/-- A change that plainly leaves all this alone may come first. -/
theorem Unremarked.after (h : mid.Unremarked next) (hvariant : mid.variant = pos.variant)
    (hply : mid.state.ply = pos.state.ply) (hmemory : mid.state.memory = pos.state.memory) :
    pos.Unremarked next :=
  Unremarked.trans ⟨⟨hvariant, hply⟩, hmemory⟩ h

/-! ## Turns and endings -/

theorem unremarked_turnToRemoval (pos : Position) : pos.Unremarked pos.turnToRemoval := by
  rw [turnToRemoval]
  split <;> exact ⟨⟨rfl, rfl⟩, rfl⟩

/-- However a position is settled, no move is counted. -/
theorem Settling.unremarked (h : pos.Settling next) : pos.Unremarked next := by
  cases h with
  | idle _ => exact .refl pos
  | finished _ _ => exact ⟨⟨rfl, rfl⟩, rfl⟩
  | passed _ => exact (unremarked_turnToRemoval pos.passTurn).after rfl rfl rfl
  | freed frees _ _ =>
      exact (unremarked_turnToRemoval
        (pos.mapState fun s => { s with freesMover := frees }).oweFreeing).after rfl rfl rfl
  | kept _ _ => exact unremarked_turnToRemoval pos

theorem unremarked_settle (pos : Position) : pos.Unremarked pos.settle :=
  (settling_settle pos).unremarked

theorem unremarked_clearMarks (pos : Position) : pos.Unremarked pos.clearMarks := by
  have hvacate : ∀ (ps : List Point) (q : Position), q.Unremarked (ps.foldl vacate q) := by
    intro ps
    induction ps with
    | nil => exact .refl
    | cons p ps ih => exact fun q => (ih (q.vacate p)).after rfl rfl rfl
  exact hvacate _ pos

/-- The end of placing counts no move. -/
theorem PlacingEnd.unremarked (h : pos.PlacingEnd next) : pos.Unremarked next := by
  cases h with
  | lifted _ => exact (unremarked_clearMarks pos).trans ⟨⟨rfl, rfl⟩, rfl⟩
  | counted _ => exact ⟨⟨rfl, rfl⟩, rfl⟩
  | plain _ _ => exact ⟨⟨rfl, rfl⟩, rfl⟩

theorem unremarked_endPlacingOrPass (pos : Position) : pos.Unremarked pos.endPlacingOrPass := by
  rcases endPlacingOrPass_cases pos with ⟨_, hend⟩ | hpass
  · exact hend.unremarked
  · rw [hpass]
    exact ⟨⟨rfl, rfl⟩, rfl⟩

theorem unremarked_resolveFullBoard (pos : Position) : pos.Unremarked pos.resolveFullBoard := by
  simp only [resolveFullBoard]
  split <;> exact ⟨⟨rfl, rfl⟩, rfl⟩

/-! ## What follows a move of the men -/

theorem Raid.unremarked (h : pos.Raid next) : pos.Unremarked next := by
  cases h with
  | owed _ => exact ⟨⟨rfl, rfl⟩, rfl⟩
  | ended _ hend => exact hend.unremarked.trans (unremarked_settle _)
  | passed => exact (unremarked_settle pos.passTurn).after rfl rfl rfl
  | kept => exact unremarked_settle pos

/-- What follows a placement counts no move. -/
theorem AfterDrop.unremarked (h : pos.AfterDrop next) : pos.Unremarked next := by
  cases h with
  | calm => exact (unremarked_endPlacingOrPass pos).trans (unremarked_settle _)
  | full => exact unremarked_resolveFullBoard pos
  | raid n => exact (raid_takeFromHand pos n).unremarked.after rfl rfl rfl
  | owed _ => exact ⟨⟨rfl, rfl⟩, rfl⟩

/-- What follows a slide counts no move, though it may remember the slide. -/
theorem AfterShift.uncounted (h : pos.AfterShift next) : pos.Uncounted next := by
  cases h with
  | calm slid => exact (unremarked_settle _).toUncounted.after rfl rfl
  | owed _ _ => exact ⟨rfl, rfl⟩

theorem AfterRemovals.unremarked (h : pos.AfterRemovals next) : pos.Unremarked next := by
  cases h with
  | ended _ hend => exact hend.unremarked
  | kept => exact ⟨⟨rfl, rfl⟩, rfl⟩
  | passed => exact ⟨⟨rfl, rfl⟩, rfl⟩

/-- What follows a removal counts no move. -/
theorem AfterTaking.unremarked (h : pos.AfterTaking next) : pos.Unremarked next := by
  cases h with
  | beaten _ _ => exact ⟨⟨rfl, rfl⟩, rfl⟩
  | more _ => exact .refl pos
  | turned hturned => exact hturned.unremarked
  | settled hturned => exact hturned.unremarked.trans (unremarked_settle _)

/-! ## Acts of a player -/

theorem uncounted_scoreMills (pos : Position) (p : Point) (c : Side) :
    pos.Uncounted (pos.scoreMills p c).2 := by
  simp only [scoreMills]
  split <;> exact ⟨rfl, rfl⟩

theorem uncounted_placeMan (pos : Position) (p : Point) : pos.Uncounted (pos.placeMan p).2 := by
  obtain ⟨n, hn⟩ := placeMan_snd pos p
  have hdropped : pos.Uncounted (pos.drop p) := ⟨rfl, rfl⟩
  rw [hn]
  exact (hdropped.trans (uncounted_scoreMills _ p _)).trans
    (afterDrop_cases _ n).unremarked.toUncounted

theorem uncounted_slideMan (pos : Position) (a b : Point) :
    pos.Uncounted (pos.slideMan a b).2 := by
  obtain ⟨opened, n, hn⟩ := slideMan_snd pos a b
  have hshifted : pos.Uncounted (pos.shift a b) := ⟨rfl, rfl⟩
  rw [hn]
  exact (hshifted.trans (uncounted_scoreMills _ b _)).trans
    (afterShift_cases _ a b opened n).uncounted

theorem uncounted_takeMan (pos : Position) (p : Point) (target : Side) :
    pos.Uncounted (pos.takeMan p target) := by
  refine ⟨(takeMan_frame pos p target).variant, ?_⟩
  show (pos.clearPoint p).state.ply = pos.state.ply
  rw [clearPoint]
  split <;> rfl

theorem uncounted_placeFromHand {p : Point} {r : Nat × Position}
    (hphase : pos.state.phase = .ready ∨ pos.state.phase = .placing)
    (h : pos.placeFromHand p = .ok r) : pos.Uncounted r.2 := by
  obtain ⟨_, rfl⟩ := placeFromHand_iff.1 h
  rw [start_of_placing hphase]
  exact (uncounted_placeMan _ p).after rfl rfl

theorem uncounted_slideSelected {p : Point} {r : Nat × Position}
    (h : pos.slideSelected p = .ok r) : pos.Uncounted r.2 := by
  obtain ⟨a, _, _, rfl⟩ := slideSelected_iff.1 h
  exact uncounted_slideMan pos a p

/-- Pointing at a point counts no move by itself. -/
theorem uncounted_put {p : Point} {r : Nat × Position} (h : pos.put p = .ok r) :
    pos.Uncounted r.2 := by
  have hact := (put_ok_iff.1 h).2
  simp only [putOn] at hact
  split at hact
  · cases hact
  · exact uncounted_placeFromHand (Or.inl ‹_›) hact
  · split at hact
    · cases hact
      exact ⟨rfl, rfl⟩
    · split at hact
      · exact uncounted_slideSelected hact
      · exact uncounted_placeFromHand (Or.inr ‹_›) hact
  · exact uncounted_slideSelected hact
  · cases hact
  · cases hact

/-- Sliding counts no move by itself. -/
theorem uncounted_slide {a b : Point} {r : Nat × Position} (h : pos.slide a b = .ok r) :
    pos.Uncounted r.2 := by
  obtain ⟨picked, hselect, hput⟩ := bind_eq_ok_iff.1 h
  obtain ⟨_, _, _, _, rfl⟩ := select_ok_iff.1 hselect
  exact (uncounted_put hput).after rfl rfl

/-- Removing counts no move by itself. -/
theorem uncounted_remove {p : Point} (h : pos.remove p = .ok next) : pos.Uncounted next := by
  obtain ⟨_, rfl⟩ := remove_ok_iff.1 h
  exact (uncounted_takeMan pos p _).trans
    (afterTaking_cases _ pos.removalTarget).unremarked.toUncounted

/-! ## Moves -/

/-- What a move does is counted only when it is over. -/
theorem Playing.uncounted {m : Move} (h : pos.Playing m next) : pos.Uncounted next := by
  cases h with
  | placed _ hput => exact (uncounted_put hput).after rfl rfl
  | slid _ hslide => exact uncounted_slide hslide
  | removed _ hremove => exact uncounted_remove hremove

/-- An accepted move keeps the variant. -/
theorem variant_apply {m : Move} (hnext : pos.apply m = .ok next) : next.variant = pos.variant := by
  obtain ⟨played, hplayed, rfl⟩ := apply_ok_iff.1 hnext
  exact hplayed.uncounted.variant

/-- An accepted move is counted once and remembered. -/
theorem counted_apply {m : Move} (hnext : pos.apply m = .ok next) :
    next.state.ply = pos.state.ply + 1 ∧ next.state.lastMove = m := by
  obtain ⟨played, hplayed, rfl⟩ := apply_ok_iff.1 hnext
  exact ⟨congrArg (· + 1) hplayed.uncounted.ply, rfl⟩

end Position

end Morris
