import Morris.Proofs.Reachable

/-!
# Games of accepted moves

A game is `PlayedBy` moves of some kind when it begins with the first position of a rule and goes on
by moves of that kind which the position accepts. The moves that a player can enter are those
`Move.OnBoard`: placements on, slides between and removals from live points. Every position of such
a game is reachable, hence sound, and has the rule that the game began with.
-/

set_option autoImplicit false

namespace Morris

/-- A move on live points that does not end where it starts. -/
inductive Move.OnBoard : Move → Prop
  | place {p : Point} : Point.onBoard p = true → OnBoard (.place p)
  | slide {a b : Point} : Point.onBoard a = true → Point.onBoard b = true → a ≠ b →
      OnBoard (.slide a b)
  | remove {p : Point} : Point.onBoard p = true → OnBoard (.remove p)

/-- A move on live points is made again from its points. -/
theorem Move.onBoard_iff {m : Move} : m.OnBoard ↔
    (Point.onBoard m.target = true ∧ (m = .place m.target ∨ m = .remove m.target)) ∨
      (Point.onBoard m.origin = true ∧ Point.onBoard m.target = true ∧ m.origin ≠ m.target ∧
        m = .slide m.origin m.target) := by
  constructor
  · intro h
    cases h with
    | place hp =>
        rw [(Move.place_spec hp).2]
        exact Or.inl ⟨hp, Or.inl rfl⟩
    | slide ha hb hne =>
        obtain ⟨_, horigin, htarget⟩ := Move.slide_spec ha hb
        rw [horigin, htarget]
        exact Or.inr ⟨ha, hb, hne, rfl⟩
    | remove hp =>
        rw [(Move.remove_spec hp).2]
        exact Or.inl ⟨hp, Or.inr rfl⟩
  · rintro (⟨hp, hm | hm⟩ | ⟨ha, hb, hne, hm⟩)
    · rw [hm]
      exact .place hp
    · rw [hm]
      exact .remove hp
    · rw [hm]
      exact .slide ha hb hne

instance (m : Move) : Decidable m.OnBoard := decidable_of_iff' _ Move.onBoard_iff

namespace Position

/-- Positions of games that go on by accepted moves of some kind. -/
inductive PlayedBy (admits : Move → Prop) (rule : Rule) : Position → Prop
  | begin {pos : Position} : ofRule rule = .ok pos → PlayedBy admits rule pos
  | move {pos next : Position} {m : Move} : PlayedBy admits rule pos → admits m →
      pos.apply m = .ok next → PlayedBy admits rule next

variable {admits : Move → Prop} {rule : Rule} {pos next : Position}

theorem PlayedBy.reachable (h : PlayedBy admits rule pos) : Reachable rule pos := by
  induction h with
  | begin hbegin => exact .begin hbegin
  | @move _ _ m _ _ hnext ih =>
      have hstep := ih.perform (.apply m)
      rw [perform, toOption_eq_some_iff.2 hnext] at hstep
      exact hstep

theorem PlayedBy.sound (h : PlayedBy admits rule pos) : pos.Sound := h.reachable.sound

/-- No move changes the rule. -/
theorem PlayedBy.rule_eq (h : PlayedBy admits rule pos) : pos.rule = rule := by
  induction h with
  | begin hbegin =>
      obtain ⟨v, hv, rfl⟩ := map_eq_ok_iff.1 hbegin
      exact (Variant.made_of_ofRule hv).2
  | move hplayed _ hnext ih =>
      exact (congrArg Variant.rule (variant_apply hnext)).trans ih

/-- No move changes the variant. -/
theorem PlayedBy.variant_ofRule (h : PlayedBy admits rule pos) :
    Variant.ofRule? rule = .ok pos.variant := by
  induction h with
  | begin hbegin =>
      obtain ⟨v, hv, rfl⟩ := map_eq_ok_iff.1 hbegin
      exact hv
  | move _ _ hnext ih => rw [ih, variant_apply hnext]

theorem PlayedBy.mono {admits' : Move → Prop} (h : PlayedBy admits rule pos)
    (hadmits : ∀ m, admits m → admits' m) : PlayedBy admits' rule pos := by
  induction h with
  | begin hbegin => exact .begin hbegin
  | move _ hm hnext ih => exact ih.move (hadmits _ hm) hnext

/-- Play moves one after another as long as they are accepted. -/
def applyAll? (pos : Position) : List Move → Option Position
  | [] => some pos
  | m :: ms => (pos.apply m).toOption.bind fun next => next.applyAll? ms

theorem PlayedBy.applyAll (h : PlayedBy admits rule pos) {ms : List Move}
    (hms : ∀ m ∈ ms, admits m) (hnext : pos.applyAll? ms = some next) :
    PlayedBy admits rule next := by
  induction ms generalizing pos with
  | nil =>
      cases hnext
      exact h
  | cons m ms ih =>
      obtain ⟨mid, hmid, hrest⟩ := Option.bind_eq_some_iff.1 hnext
      have hstep := h.move (hms m List.mem_cons_self) (toOption_eq_some_iff.1 hmid)
      exact ih hstep (fun r hr => hms r (List.mem_cons_of_mem m hr)) hrest

end Position

end Morris
