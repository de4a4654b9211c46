import Morris.Game

/-!
# The history of a game

While a game is played its keys are kept up to date move by move; when records are taken back they
are rebuilt from the positions that the game remembers. `Game.Remembers` says that the two agree,
and holds of every game that comes about by records, by taking records back and by the symmetries of
the board (`Game.Reachable.remembers`).

So taking records back is exact: after any records that go on with a game, stepping back to the
number of records that the game had after some of them gives the very game that it was then
(`Game.reachable_rewind`).
-/

set_option autoImplicit false

namespace Morris.Game

variable {rule : Rule} {g next mid last : Game} {text : String} {texts : List String}

/-! ## Games that come about -/

/-- Games that come about from the first one of a rule. -/
inductive Reachable (rule : Rule) : Game → Prop
  | begin {g : Game} : ofRule rule = .ok g → Reachable rule g
  | command {g next : Game} {text : String} : Reachable rule g → g.command text = some next →
      Reachable rule next
  | undo {g next : Game} : Reachable rule g → g.undo? = some next → Reachable rule next
  | rewind {g next : Game} {n : Nat} : Reachable rule g → g.rewind? n = some next →
      Reachable rule next
  | image {g : Game} (t : Symmetry) : Reachable rule g → Reachable rule (g.image t)

/-- Play records one after another; `none` if one of them is refused. -/
def playAll? (g : Game) : List String → Option Game
  | [] => some g
  | text :: texts => (g.command text).bind fun next => next.playAll? texts

theorem Reachable.playAll (h : Reachable rule g) (hlast : g.playAll? texts = some last) :
    Reachable rule last := by
  induction texts generalizing g with
  | nil =>
      cases hlast
      exact h
  | cons text texts ih =>
      obtain ⟨next, hnext, hrest⟩ := Option.bind_eq_some_iff.1 hlast
      exact ih (h.command hnext) hrest

/-- Play a record that goes on with the game: it is not blank, and what it leads to has the rule
that the game had. -/
def goOn? (g : Game) (text : String) : Option Game :=
  if (Text.trimString text).isEmpty then none
  else (g.command text).filter fun next => next.position.rule = g.position.rule

/-- Play records that go on with the game, one after another. -/
def goOnAll? (g : Game) : List String → Option Game
  | [] => some g
  | text :: texts => (g.goOn? text).bind fun next => next.goOnAll? texts

/-! ## Keys -/

/-- The keys are those that the remembered positions and the present one give. -/
def Remembers (g : Game) : Prop :=
  g.keys = rebuildKeys (g.steps.map (·.before) ++ [g.position])

theorem zip_tail_append_pair {α : Type} (xs : List α) (a b : α) :
    (xs ++ [a, b]).zip (xs ++ [a, b]).tail = (xs ++ [a]).zip (xs ++ [a]).tail ++ [(a, b)] := by
  induction xs with
  | nil => rfl
  | cons x xs ih =>
      cases xs with
      | nil => rfl
      | cons y xs => simpa using ih

/-- One more position adds its key, takes all keys away, or changes nothing. -/
theorem rebuildKeys_append_pair (positions : List Position) (a b : Position) :
    rebuildKeys (positions ++ [a, b]) =
      if b.state.ply = a.state.ply + 1 ∧ a.rule = b.rule then
        noteMove b.state.lastMove.kind b.state.key (rebuildKeys (positions ++ [a]))
      else rebuildKeys (positions ++ [a]) := by
  simp only [rebuildKeys, zip_tail_append_pair, List.foldl_append, List.foldl_cons, List.foldl_nil]

/-- A draw leaves alone what the keys are made from. -/
theorem rebuildKeys_declareRepetition (positions : List Position) (pos : Position) :
    rebuildKeys (positions ++ [pos.declareRepetition]) = rebuildKeys (positions ++ [pos]) := by
  rcases List.eq_nil_or_concat positions with rfl | ⟨earlier, before, rfl⟩
  · rfl
  · simp only [List.concat_eq_append, List.append_assoc, List.cons_append, List.nil_append,
      rebuildKeys_append_pair]
    rfl

theorem steps_drawIfRepeated (g : Game) : g.drawIfRepeated.steps = g.steps := by
  rw [drawIfRepeated]
  split <;> rfl

theorem Remembers.drawIfRepeated (h : g.Remembers) : g.drawIfRepeated.Remembers := by
  rw [Game.drawIfRepeated]
  split
  · exact h.trans (rebuildKeys_declareRepetition _ _).symm
  · exact h

theorem Remembers.accept (h : g.Remembers) (text : String) (next : Position) :
    (g.accept text next).Remembers := by
  rw [Game.accept]
  split
  · -- under another rule the one move between the two positions counts for nothing
    rename_i hrule
    simp [Remembers, rebuildKeys, hrule]
  · rename_i hrule
    apply Remembers.drawIfRepeated
    have hsame : g.position.rule = next.rule := Decidable.not_not.1 hrule
    -- a move counts up, so it changes the state
    have hmoved : (next.state ≠ g.position.state ∧ next.state.ply = g.position.state.ply + 1) ↔
        next.state.ply = g.position.state.ply + 1 := by
      refine and_iff_right_of_imp fun hply hstate => ?_
      rw [hstate] at hply
      omega
    simp only [Remembers, List.map_append, List.map_cons, List.map_nil, List.append_assoc,
      List.cons_append, List.nil_append, rebuildKeys_append_pair, hsame, and_true, hmoved]
    rw [← h]

theorem remembers_withRebuiltKeys (g : Game) : g.withRebuiltKeys.Remembers := rfl

theorem Remembers.command (h : g.Remembers) (hnext : g.command text = some next) :
    next.Remembers := by
  simp only [Game.command] at hnext
  split at hnext
  · cases hnext
    rfl
  · obtain ⟨pos, _, rfl⟩ := Option.map_eq_some_iff.1 hnext
    exact h.accept _ pos

/-- Stepping back leads to the position before one of the records, unless there is nothing to step
back from. -/
theorem rewound_of_rewind {n : Nat} (h : g.rewind? n = some next) : next = g ∨
    ∃ s, g.steps[n]? = some s ∧
      next = withRebuiltKeys { position := s.before, steps := g.steps.take n } := by
  simp only [rewind?] at h
  split at h
  · cases h
  · split at h
    · cases h
      exact Or.inl rfl
    · cases h
      exact Or.inr ⟨_, ‹_›, rfl⟩

theorem rewind_of_undo (h : g.undo? = some next) : g.rewind? (g.steps.length - 1) = some next := by
  rw [undo?] at h
  split at h
  · cases h
  · exact h

theorem Remembers.rewind {n : Nat} (h : g.Remembers) (hnext : g.rewind? n = some next) :
    next.Remembers := by
  rcases rewound_of_rewind hnext with rfl | ⟨s, _, rfl⟩
  · exact h
  · exact remembers_withRebuiltKeys _

theorem Remembers.undo (h : g.Remembers) (hnext : g.undo? = some next) : next.Remembers :=
  h.rewind (rewind_of_undo hnext)

/-- Keys kept up to date are the keys rebuilt. -/
theorem Reachable.remembers (h : Reachable rule g) : g.Remembers := by
  induction h with
  | begin hbegin =>
      cases hpos : Position.ofRule rule with
      | error fault =>
          rw [ofRule, hpos] at hbegin
          cases hbegin
      | ok pos =>
          rw [ofRule, hpos] at hbegin
          cases hbegin
          rfl
  | command _ hnext ih => exact ih.command hnext
  | undo _ hnext ih => exact ih.undo hnext
  | rewind _ hnext ih => exact ih.rewind hnext
  | image t _ _ => exact remembers_withRebuiltKeys _

/-! ## Going on and stepping back -/

/-- Records that go on add one step each. -/
theorem steps_goOn (h : g.goOn? text = some next) :
    ∃ record, next.steps = g.steps ++ [⟨g.position, record⟩] := by
  simp only [goOn?] at h
  split at h
  · cases h
  · rename_i hfull
    obtain ⟨haccepted, hrule⟩ := Option.filter_eq_some_iff.1 h
    rw [decide_eq_true_eq] at hrule
    rw [Game.command, if_neg hfull] at haccepted
    obtain ⟨pos, _, rfl⟩ := Option.map_eq_some_iff.1 haccepted
    rw [accept] at hrule ⊢
    split
    · rename_i hother
      rw [if_pos hother] at hrule
      exact absurd hrule.symm hother
    · exact ⟨_, steps_drawIfRepeated _⟩

theorem Reachable.goOn (h : Reachable rule g) (hnext : g.goOn? text = some next) :
    Reachable rule next := by
  simp only [goOn?] at hnext
  split at hnext
  · cases hnext
  · exact h.command (Option.filter_eq_some_iff.1 hnext).1

theorem Reachable.goOnAll (h : Reachable rule g) (hlast : g.goOnAll? texts = some last) :
    Reachable rule last := by
  induction texts generalizing g with
  | nil =>
      cases hlast
      exact h
  | cons text texts ih =>
      obtain ⟨next, hnext, hrest⟩ := Option.bind_eq_some_iff.1 hlast
      exact ih (h.goOn hnext) hrest

theorem goOnAll?_append (xs ys : List String) :
    g.goOnAll? (xs ++ ys) = (g.goOnAll? xs).bind fun mid => mid.goOnAll? ys := by
  induction xs generalizing g with
  | nil => rfl
  | cons x xs ih => simp only [List.cons_append, goOnAll?, ih, Option.bind_assoc]

/-- The steps of the records that went on come after those of the game, the first of them with the
position of the game before it. -/
theorem steps_goOnAll (h : g.goOnAll? texts = some last) : ∃ added, last.steps = g.steps ++ added ∧
    added.length = texts.length ∧ (added = [] → last = g) ∧
    ∀ step ∈ added.head?, step.before = g.position := by
  -- over the records: the first one is played in the game itself, and the others come after it
  induction texts generalizing g with
  | nil =>
      cases h
      exact ⟨[], by simp⟩
  | cons text texts ih =>
      obtain ⟨next, hnext, hrest⟩ := Option.bind_eq_some_iff.1 h
      obtain ⟨record, hstep⟩ := steps_goOn hnext
      obtain ⟨added, hadded, hlength, _, _⟩ := ih hrest
      exact ⟨⟨g.position, record⟩ :: added, by simp [hadded, hstep], by simp [hlength], by simp,
        by simp⟩

/-- Stepping back to the records that a game had brings the game back. -/
theorem Remembers.rewind_goOnAll (h : g.Remembers) (hlast : g.goOnAll? texts = some last) :
    last.rewind? g.records.length = some g := by
  obtain ⟨added, hsteps, _, hnone, hfirst⟩ := steps_goOnAll hlast
  have hlength : g.records.length = g.steps.length := List.length_map _
  rw [hlength, rewind?, if_neg (by simp [hsteps])]
  cases added with
  | nil =>
      obtain rfl := hnone rfl
      simp
  | cons step added =>
      have hbefore : step.before = g.position := hfirst step rfl
      have hthere : last.steps[g.steps.length]? = some step := by simp [hsteps]
      have hkept : last.steps.take g.steps.length = g.steps := by simp [hsteps]
      simp only [hthere, hkept, hbefore, withRebuiltKeys]
      rw [← h]

/-- Whatever records, steps back and symmetries a game comes from: after records that go on with it,
stepping back to any number of records from the old one on gives exactly the game that there was
after so many records, with its position, rule, records, remembered positions and keys. One such
record is taken back by `undo?`. -/
theorem reachable_rewind (h : Reachable rule g) (hlast : g.goOnAll? texts = some last) :
    (∀ k ≤ texts.length, ∃ mid, g.goOnAll? (texts.take k) = some mid ∧
        last.rewind? (g.records.length + k) = some mid) ∧
      (texts.length = 1 → last.undo? = some g) := by
  constructor
  · intro k hk
    -- the game after so many records lies on the way and has so many records more
    have hcut := hlast
    rw [← List.take_append_drop k texts, goOnAll?_append] at hcut
    obtain ⟨mid, hmid, hrest⟩ := Option.bind_eq_some_iff.1 hcut
    obtain ⟨added, hsteps, hlength, _⟩ := steps_goOnAll hmid
    have hcount : mid.records.length = g.records.length + k := by
      simp only [records, List.length_map, hsteps, List.length_append, hlength,
        List.length_take_of_le hk]
    refine ⟨mid, hmid, ?_⟩
    rw [← hcount]
    exact (h.goOnAll hmid).remembers.rewind_goOnAll hrest
  · intro hone
    obtain ⟨added, hsteps, hlength, _⟩ := steps_goOnAll hlast
    have hcount : last.steps.length = g.records.length + 1 := by
      simp [records, hsteps, hlength, hone]
    have hsome : last.steps.isEmpty = false :=
      List.isEmpty_eq_false_iff.2 (List.ne_nil_of_length_eq_add_one hcount)
    rw [undo?, hsome, if_neg Bool.false_ne_true, hcount, Nat.add_sub_cancel]
    exact h.remembers.rewind_goOnAll hlast

/-- Four men a side, after the placements and a slide. -/
def quartet : Game :=
  ((ofPosition (.ofVariant (.ofRule { pieceCount := 4 }))).playAll?
    ["(1,1)", "(1,3)", "(2,2)", "(2,4)", "(3,5)", "(3,7)", "(1,6)", "(2,8)",
      "(1,1)->(1,2)"]).getD default

/-- The reflection of a game with a slide in it, continued by two slides and White giving up, goes
back to the position after the two slides. -/
theorem reachable_rewind_quartet :
    Reachable { pieceCount := 4 } (quartet.image .reflection) ∧
      ∃ last, (quartet.image .reflection).goOnAll?
          ["(1,7)->(2,7)", "(1,8)->(1,1)", "Player1 give up!"] = some last ∧
        ∃ mid, (quartet.image .reflection).goOnAll? ["(1,7)->(2,7)", "(1,8)->(1,1)"] = some mid ∧
          last.rewind? 11 = some mid := by
  have hbegin : Reachable { pieceCount := 4 }
      (ofPosition (.ofVariant (.ofRule { pieceCount := 4 }))) := .begin rfl
  have hplayed : (ofPosition (.ofVariant (.ofRule { pieceCount := 4 }))).playAll?
      ["(1,1)", "(1,3)", "(2,2)", "(2,4)", "(3,5)", "(3,7)", "(1,6)", "(2,8)",
        "(1,1)->(1,2)"] = some quartet := by
    decide +kernel
  have hreach := (hbegin.playAll hplayed).image .reflection
  have hgoes : ((quartet.image .reflection).goOnAll?
      ["(1,7)->(2,7)", "(1,8)->(1,1)", "Player1 give up!"]).isSome = true := by
    decide +kernel
  have hcount : (quartet.image .reflection).records.length = 9 := by decide +kernel
  obtain ⟨last, hlast⟩ := Option.isSome_iff_exists.1 hgoes
  obtain ⟨mid, hmid, hback⟩ := (reachable_rewind hreach hlast).1 2 (by decide)
  rw [hcount] at hback
  exact ⟨hreach, last, hlast, mid, hmid, hback⟩

end Morris.Game
