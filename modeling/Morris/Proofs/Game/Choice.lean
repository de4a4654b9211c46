import Morris.Proofs.Game.Replay

/-!
# Choosing a built-in rule

A record of three words, such as `r2 s0 t0`, chooses a built-in rule. It begins with an `r`, so it
is no record of another kind, and the position takes it as the first position of that rule
(`Position.commandBody_of_chosen`).

A game takes such a record as the beginning of a new game only if the rule chosen is not the one in
force. If it is, the empty board comes as one more step of the old game: the records stay and an
empty one is added, and the keys stay. `Game.reachable_command_choice` says what is left in every
case.
-/

set_option autoImplicit false

namespace Morris

open Morris.Text (trim after? cutAt? words pieces isBlank)

/-! ## Texts -/

namespace Text

variable {c : Char} {cs : List Char}

/-- Trimming keeps a first character that is no blank. -/
theorem trim_cons (hc : isBlank c = false) (cs : List Char) :
    ∃ rest, trim (c :: cs) = c :: rest := by
  have hfront : (c :: cs).dropWhile isBlank = c :: cs := by simp [hc]
  have hkept : trim (c :: cs) = List.rdropWhile isBlank (c :: cs) := by
    rw [trim, hfront]
    rfl
  have hprefix : trim (c :: cs) <+: c :: cs := hkept ▸ List.rdropWhile_prefix isBlank _
  -- the first character is no blank, so it is not trimmed from the end either
  have hfull : trim (c :: cs) ≠ [] := by
    rw [hkept, Ne, List.rdropWhile_eq_nil_iff]
    intro hall
    have hblank := hall c List.mem_cons_self
    rw [hc] at hblank
    cases hblank
  obtain ⟨d, rest, hd⟩ := List.exists_cons_of_ne_nil hfull
  rw [hd, List.cons_prefix_cons] at hprefix
  exact ⟨rest, by rw [hd, hprefix.1]⟩

/-- The first character of a trimmed text is no blank. -/
theorem isBlank_of_trim (h : trim (c :: cs) = c :: cs) : isBlank c = false := by
  have hfront : trim (c :: cs) <+: (c :: cs).dropWhile isBlank := List.rdropWhile_prefix isBlank _
  rw [h] at hfront
  by_contra hblank
  have hdropped : (c :: cs).dropWhile isBlank = cs.dropWhile isBlank := by
    simp [eq_true_of_ne_false hblank]
  rw [hdropped] at hfront
  have hlong := hfront.length_le
  have hshort := (List.dropWhile_suffix (l := cs) isBlank).length_le
  simp only [List.length_cons] at hlong
  omega

/-- A text that begins with no blank has a first word that begins with the same character. -/
theorem head_words (hc : isBlank c = false) {w : List Char} {ws : List (List Char)}
    (h : words (c :: cs) = w :: ws) : ∃ rest, w = c :: rest := by
  simp only [words, pieces, hc, Bool.false_eq_true, if_false] at h
  -- the character comes before the first of the other pieces
  cases hpieces : pieces isBlank cs with
  | nil =>
      simp only [hpieces, List.filter_cons, List.isEmpty_cons, Bool.not_false, if_true,
        List.cons.injEq] at h
      exact ⟨[], h.1.symm⟩
  | cons v vs =>
      simp only [hpieces, List.filter_cons, List.isEmpty_cons, Bool.not_false, if_true,
        List.cons.injEq] at h
      exact ⟨v, h.1.symm⟩

/-- What precedes a mark begins like the text if the mark does not. -/
theorem cutAt?_cons {d : Char} (hne : d ≠ c) {mark left right : List Char}
    (h : cutAt? (d :: mark) (c :: cs) = some (left, right)) : ∃ rest, left = c :: rest := by
  simp only [cutAt?, after?_of_ne hne] at h
  obtain ⟨⟨l, r⟩, _, hcut⟩ := Option.map_eq_some_iff.1 h
  cases hcut
  exact ⟨l, rfl⟩

end Text

theorem trim_recordOf (text : String) : trim (recordOf text) = recordOf text := by
  simp only [recordOf]
  cases hline : engineLineRecord? (trim text.toList) with
  | none => exact Text.trim_trim _
  | some inner =>
      rw [Option.getD_some]
      obtain ⟨rest, _, hrest⟩ := Option.bind_eq_some_iff.1 hline
      obtain ⟨⟨value, record⟩, _, hrecord⟩ := Option.bind_eq_some_iff.1 hrest
      obtain ⟨_, _, rfl⟩ := Option.map_eq_some_iff.1 hrecord
      exact Text.trim_trim _

/-- A text that does not begin like a point writes none. -/
theorem Point.ofText?_cons {c : Char} (hblank : Text.isBlank c = false) (hc : c ≠ '(')
    (cs : List Char) : Point.ofText? (c :: cs) = none := by
  obtain ⟨rest, hrest⟩ := Text.trim_cons hblank cs
  simp only [Point.ofText?, hrest, Text.after?_of_ne (Ne.symm hc), Option.bind_none]

/-- A text that does not begin like a move writes none. -/
theorem Move.ofText?_cons {c : Char} (hblank : Text.isBlank c = false) (hc : c ≠ '(')
    (hsign : c ≠ '-') (cs : List Char) : Move.ofText? (c :: cs) = .none := by
  obtain ⟨rest, hrest⟩ := Text.trim_cons hblank cs
  simp only [Move.ofText?, hrest, Move.ofTrimmed?, Text.after?_of_ne (Ne.symm hsign)]
  cases hcut : cutAt? ['-', '>'] (c :: rest) with
  | none => simp only [Point.ofText?_cons hblank hc, Option.map_none]
  | some halves =>
      obtain ⟨left, hleft⟩ := Text.cutAt?_cons (Ne.symm hsign) hcut
      simp only [hleft, Point.ofText?_cons hblank hc, Option.bind_none]

/-- A record that gives a rule number begins with its letter. -/
theorem cons_of_ruleNumber {cs : List Char} {n : Nat} (htrim : trim cs = cs)
    (h : ruleNumber? cs = some n) : ∃ rest, cs = 'r' :: rest := by
  simp only [ruleNumber?] at h
  split at h
  · rename_i rule steps time hwords
    obtain ⟨_, hrule, _⟩ := Option.bind_eq_some_iff.1 h
    obtain ⟨digits, hdigits, _⟩ := Option.bind_eq_some_iff.1 hrule
    cases cs with
    | nil => cases hwords
    | cons c cs =>
        obtain ⟨rest, rfl⟩ := Text.head_words (Text.isBlank_of_trim htrim) hwords
        by_cases hc : c = 'r'
        · exact ⟨cs, by rw [hc]⟩
        · rw [Text.after?_of_ne (Ne.symm hc)] at hdigits
          cases hdigits
  · cases h

/-- A record that gives a rule number is no record of another kind. -/
theorem ruleNumber_only {cs : List Char} {n : Nat} (htrim : trim cs = cs)
    (h : ruleNumber? cs = some n) : Move.ofText? cs = none ∧
      playerBetween? "Player" " give up!" cs = none ∧
      playerBetween? "Time over. Player" " win!" cs = none := by
  obtain ⟨rest, rfl⟩ := cons_of_ruleNumber htrim h
  have hgave : after? "Player".toList ('r' :: rest) = none := Text.after?_of_ne (by decide) _ _
  have htime : after? "Time over. Player".toList ('r' :: rest) = none :=
    Text.after?_of_ne (by decide) _ _
  have hfirst : Text.isBlank 'r' = false := by decide
  refine ⟨Move.ofText?_cons hfirst (by decide) (by decide) rest, ?_, ?_⟩
  · rw [playerBetween?, hgave]
    rfl
  · rw [playerBetween?, htime]
    rfl

/-! ## The rule that a text chooses -/

/-- The built-in rule that a text chooses, if it chooses one. -/
def chosenRule? (text : String) : Option Rule :=
  match ruleNumber? (recordOf text) with
  | some (index + 1) => Rule.presets[index]?
  | _ => none

variable {text : String} {chosen : Rule}

/-- A text that chooses a rule is not blank, and gives the number of the rule. -/
theorem chosenRule_eq_some_iff : chosenRule? text = some chosen ↔
    ∃ index, ruleNumber? (recordOf text) = some (index + 1) ∧
      Rule.presets[index]? = some chosen := by
  rw [chosenRule?]
  constructor
  · intro h
    split at h
    · exact ⟨_, ‹_›, h⟩
    · cases h
  · rintro ⟨index, hnumber, hpreset⟩
    rw [hnumber]
    exact hpreset

theorem Position.ofRule_of_valid {rule : Rule} (h : rule.Valid) :
    Position.ofRule rule = .ok (.ofVariant (.ofRule rule)) := by
  have hfault : rule.fault? = none := h
  simp only [ofRule, Variant.ofRule?, hfault]
  rfl

/-- Every built-in rule has a first position. -/
theorem exists_ofRule_of_chosenRule (h : chosenRule? text = some chosen) :
    ∃ start, Position.ofRule chosen = .ok start := by
  obtain ⟨index, _, hpreset⟩ := chosenRule_eq_some_iff.1 h
  have hvalid := Rule.valid_of_mem_presets chosen (List.mem_of_getElem? hpreset)
  exact ⟨_, Position.ofRule_of_valid hvalid⟩

/-- A text starts over exactly if it is blank or chooses a rule. -/
theorem startsOver_iff :
    StartsOver text ↔ trim text.toList = [] ∨ (chosenRule? text).isSome = true := by
  refine or_congr_right ⟨?_, ?_⟩
  · rintro ⟨index, pos, hnumber, hpos⟩
    obtain ⟨rule, hrule, _⟩ := Position.bind_eq_ok_iff.1 hpos
    have hpreset : Rule.presets[index]? = some rule := by
      rw [Rule.preset] at hrule
      split at hrule
      · cases hrule
        assumption
      · cases hrule
    exact Option.isSome_iff_exists.2 ⟨rule, chosenRule_eq_some_iff.2 ⟨index, hnumber, hpreset⟩⟩
  · intro hsome
    obtain ⟨rule, hrule⟩ := Option.isSome_iff_exists.1 hsome
    obtain ⟨start, hstart⟩ := exists_ofRule_of_chosenRule hrule
    obtain ⟨index, hnumber, hpreset⟩ := chosenRule_eq_some_iff.1 hrule
    refine ⟨index, start, hnumber, ?_⟩
    rw [Rule.preset, hpreset]
    exact hstart

instance (text : String) : Decidable (StartsOver text) := decidable_of_iff _ startsOver_iff.symm

theorem startsOver_of_chosen (h : chosenRule? text = some chosen) : StartsOver text :=
  startsOver_iff.2 (Or.inr (by rw [h]; rfl))

theorem trim_ne_nil_of_chosenRule (h : chosenRule? text = some chosen) :
    trim text.toList ≠ [] := by
  obtain ⟨index, hnumber, _⟩ := chosenRule_eq_some_iff.1 h
  intro hblank
  -- a blank text has no words
  have hnone : recordOf text = [] := by
    rw [recordOf, hblank]
    rfl
  rw [hnone] at hnumber
  cases hnumber

theorem chosenRule_of_blank (h : trim text.toList = []) : chosenRule? text = none := by
  by_contra hchosen
  obtain ⟨chosen, hsome⟩ := Option.ne_none_iff_exists'.1 hchosen
  exact trim_ne_nil_of_chosenRule hsome h

theorem chosenRule_of_goes (h : ¬ StartsOver text) : chosenRule? text = none := by
  by_contra hchosen
  exact h (startsOver_iff.2 (Or.inr (Option.isSome_iff_ne_none.2 hchosen)))

theorem Position.commandBody_of_chosen (pos : Position) (h : chosenRule? text = some chosen) :
    pos.commandBody (recordOf text) = (Position.ofRule chosen).toOption := by
  obtain ⟨index, hnumber, hpreset⟩ := chosenRule_eq_some_iff.1 h
  obtain ⟨hmove, hgave, htime⟩ := ruleNumber_only (trim_recordOf text) hnumber
  have hrule : Rule.preset index = .ok chosen := by rw [Rule.preset, hpreset]
  simp only [commandBody, hmove, hgave, htime, hnumber, hrule, Except.bind]

namespace Game

variable {rule : Rule} {g next : Game}

/-! ## Sound games -/

/-- The position of a game and those before its records are sound. -/
structure SoundAll (g : Game) : Prop where
  position : g.position.Sound
  before : ∀ s ∈ g.steps, s.before.Sound

theorem SoundAll.command (h : g.SoundAll) (hnext : g.command text = some next) :
    next.SoundAll := by
  simp only [Game.command] at hnext
  split at hnext
  · cases hnext
    exact ⟨h.position.reset, fun s hs => absurd hs List.not_mem_nil⟩
  · obtain ⟨pos, hpos, rfl⟩ := Option.map_eq_some_iff.1 hnext
    have hsound := h.position.command hpos
    -- the step that is added remembers the position before the command
    have hthis : ∀ record, ∀ s ∈ [(⟨g.position, record⟩ : Step)], s.before.Sound := fun _ =>
      List.forall_mem_singleton.2 h.position
    rw [accept]
    split
    · exact ⟨hsound, hthis _⟩
    · refine ⟨(checked_drawIfRepeated hsound).sound, ?_⟩
      rw [steps_drawIfRepeated]
      exact List.forall_mem_append.2 ⟨h.before, hthis _⟩

theorem SoundAll.rewind {n : Nat} (h : g.SoundAll) (hnext : g.rewind? n = some next) :
    next.SoundAll := by
  rcases rewound_of_rewind hnext with rfl | ⟨s, hthere, rfl⟩
  · exact h
  · exact ⟨h.before s (List.mem_of_getElem? hthere),
      fun s hs => h.before s (List.mem_of_mem_take hs)⟩

theorem SoundAll.undo (h : g.SoundAll) (hnext : g.undo? = some next) : next.SoundAll :=
  h.rewind (rewind_of_undo hnext)

theorem SoundAll.image (h : g.SoundAll) (t : Symmetry) : (g.image t).SoundAll := by
  have hposition : (g.image t).position = g.position.image t := rfl
  have hsteps : (g.image t).steps =
      g.steps.map fun s => ⟨s.before.image t, t.onRecord s.record⟩ := rfl
  refine ⟨hposition ▸ h.position.image t, ?_⟩
  rw [hsteps, List.forall_mem_map]
  exact fun s hs => (h.before s hs).image t

theorem Reachable.soundAll (h : Reachable rule g) : g.SoundAll := by
  induction h with
  | begin hbegin =>
      obtain ⟨pos, hpos, rfl⟩ := Position.map_eq_ok_iff.1 hbegin
      exact ⟨Position.sound_ofRule hpos, fun s hs => absurd hs List.not_mem_nil⟩
  | command _ hnext ih => exact ih.command hnext
  | undo _ hnext ih => exact ih.undo hnext
  | rewind _ hnext ih => exact ih.rewind hnext
  | image t _ ih => exact ih.image t

/-! ## Choosing a rule in a game -/

/-- Taking back the last step brings back the position before it. -/
theorem undo_of_last {steps : List Step} {s : Step} (h : next.steps = steps ++ [s]) :
    next.undo? = some (withRebuiltKeys { position := s.before, steps := steps }) := by
  simp [undo?, rewind?, h, withRebuiltKeys]

theorem command_of_chosen {start : Position} (hchosen : chosenRule? text = some chosen)
    (hstart : Position.ofRule chosen = .ok start) :
    g.command text = some (g.accept (Text.trimString text) start) := by
  rw [command_of_full (trim_ne_nil_of_chosenRule hchosen),
    Position.commandBody_of_chosen _ hchosen, hstart]
  rfl

theorem rule_of_ofRule {start : Position} (h : Position.ofRule rule = .ok start) :
    start.rule = rule ∧ start.state = .initial rule.pieceCount := by
  obtain ⟨v, hv, rfl⟩ := Position.map_eq_ok_iff.1 h
  obtain ⟨_, rfl⟩ := Variant.made_of_ofRule hv
  exact ⟨rfl, rfl⟩

/-- The first position of the rule in force comes as one more step, which is no move. -/
theorem accept_restart {start : Position} (hstart : Position.ofRule g.position.rule = .ok start)
    (text : String) :
    g.accept text start = drawIfRepeated
      { position := start
        steps := g.steps ++ [⟨g.position, if g.position.state = start.state then text else ""⟩]
        keys := g.keys } := by
  obtain ⟨hrule, hstate⟩ := rule_of_ofRule hstart
  have hply : start.state.ply = 0 := by
    rw [hstate]
    rfl
  have hrecord : start.record = "" := by
    rw [Position.record, Position.isOver, hstate]
    rfl
  by_cases hsame : g.position.state = start.state
  · simp [accept, hrule, hsame]
  · simp [accept, hrule, hply, hrecord, hsame, Ne.symm hsame]

/-- What is left when a text chooses a built-in rule, in whatever game. The record is always
accepted, and taking it back returns to the position before it. Another rule than the one in force
begins a new game, with the text as its only record and no keys. The rule in force leaves the
records and the keys of the old game, and adds an empty record unless the game has not been played;
so only a game without records is like new afterwards. -/
theorem reachable_command_choice (h : Reachable rule g) (hchosen : chosenRule? text = some chosen) :
    ∃ start next, Position.ofRule chosen = .ok start ∧ g.command text = some next ∧
      (∃ back, next.undo? = some back ∧ back.position = g.position) ∧
      (g.position.rule ≠ chosen → next =
        { position := start, steps := [⟨g.position, Text.trimString text⟩], keys := [] }) ∧
      (g.position.rule = chosen → next = drawIfRepeated
        { position := start
          steps := g.steps ++
            [⟨g.position, if g.position.state = start.state then Text.trimString text else ""⟩]
          keys := g.keys }) ∧
      ((next.position = start ∧ next.records = [Text.trimString text] ∧ next.keys = []) ↔
        (g.position.rule ≠ chosen ∨ (g.position.state = start.state ∧ g.records = []))) := by
  obtain ⟨start, hstart⟩ := exists_ofRule_of_chosenRule hchosen
  obtain ⟨hrule, _⟩ := rule_of_ofRule hstart
  refine ⟨start, _, hstart, command_of_chosen hchosen hstart, ?_⟩
  by_cases hsame : g.position.rule = chosen
  · subst hsame
    rw [accept_restart hstart]
    refine ⟨⟨_, undo_of_last (steps_drawIfRepeated _), rfl⟩, absurd rfl, fun _ => rfl, ?_⟩
    have hfull : Text.trimString text ≠ "" := by
      rw [Text.trimString, Ne, String.ofList_eq_empty_iff]
      exact trim_ne_nil_of_chosenRule hchosen
    constructor
    · rintro ⟨_, hrecords, _⟩
      right
      -- the one record there is is the new one, and it is not the empty one
      simp only [records, steps_drawIfRepeated, List.map_append, List.map_cons,
        List.map_nil] at hrecords
      rw [← List.nil_append [Text.trimString text]] at hrecords
      obtain ⟨hnone, hlast⟩ := List.append_inj' hrecords rfl
      refine ⟨?_, hnone⟩
      by_contra hplayed
      rw [if_neg hplayed] at hlast
      exact hfull (List.singleton_inj.1 hlast).symm
    · rintro (hother | ⟨hstate, hnone⟩)
      · exact absurd rfl hother
      · have hsteps : g.steps = [] := List.map_eq_nil_iff.1 hnone
        have hkeys : g.keys = [] := by
          rw [h.remembers, hsteps]
          rfl
        have hcycle : drawIfRepeated
            { position := start, steps := [⟨g.position, Text.trimString text⟩], keys := [] } =
              { position := start, steps := [⟨g.position, Text.trimString text⟩], keys := [] } := by
          simp [drawIfRepeated, hasCycle]
        rw [hsteps, hkeys, if_pos hstate, List.nil_append, hcycle]
        exact ⟨rfl, rfl, rfl⟩
  · have hnew : g.accept (Text.trimString text) start =
        { position := start, steps := [⟨g.position, Text.trimString text⟩], keys := [] } := by
      rw [accept, if_pos (by rw [hrule]; exact hsame)]
    rw [hnew]
    exact ⟨⟨_, undo_of_last (List.nil_append _).symm, rfl⟩, fun _ => rfl,
      fun hno => absurd hno hsame,
      fun _ => Or.inl hsame, fun _ => ⟨rfl, rfl, rfl⟩⟩

/-- Nine Men's Morris after one placement. -/
def opened : Game := (untouched.playAll? ["(1,1)"]).getD default

theorem reachable_opened : Reachable {} opened := by
  have hbegin : Reachable {} untouched := .begin rfl
  exact hbegin.playAll (show untouched.playAll? ["(1,1)"] = some opened by decide +kernel)

/-- Twelve Men's Morris is chosen after a placement: a new game begins, and it can be taken back. -/
theorem reachable_command_choice_twelve :
    Reachable {} opened ∧ ∃ chosen start next, chosenRule? " r2 s0 t0" = some chosen ∧
      Position.ofRule chosen = .ok start ∧ opened.command " r2 s0 t0" = some next ∧
      next.position = start ∧ next.records = ["r2 s0 t0"] ∧ next.keys = [] ∧
      ∃ back, next.undo? = some back ∧ back.position = opened.position := by
  have hchosen : chosenRule? " r2 s0 t0" = Rule.presets[1]? := by decide +kernel
  have hother : opened.position.rule ≠ Rule.presets[1] := by decide +kernel
  obtain ⟨start, next, hstart, hnext, hback, _, _, hnew⟩ :=
    reachable_command_choice reachable_opened (hchosen.trans (List.getElem?_eq_getElem (by decide)))
  obtain ⟨hposition, hrecords, hkeys⟩ := hnew.2 (Or.inl hother)
  rw [show Text.trimString " r2 s0 t0" = "r2 s0 t0" by decide +kernel] at hrecords
  exact ⟨reachable_opened, _, start, next, hchosen, hstart, hnext, hposition, hrecords, hkeys,
    hback⟩

/-- Not every choice of a rule begins a new game: Nine Men's Morris chosen after a placement in Nine
Men's Morris leaves the record of the placement, and adds an empty one. -/
theorem not_forall_command_choice_new :
    ¬ ∀ (rule : Rule) (g : Game) (text : String) (chosen : Rule), Reachable rule g →
      chosenRule? text = some chosen → ∃ start next, Position.ofRule chosen = .ok start ∧
        g.command text = some next ∧ next.position = start ∧
        next.records = [Text.trimString text] ∧ next.keys = [] ∧
        ∃ back, next.undo? = some back ∧ back.position = g.position := by
  intro hall
  have hchosen : chosenRule? "r1 s0 t0" = some {} := by decide +kernel
  have hkept : (opened.command "r1 s0 t0").map (·.records) = some ["(1,1)", ""] := by decide +kernel
  obtain ⟨_, next, _, hnext, _, hrecords, _⟩ :=
    hall {} opened "r1 s0 t0" {} reachable_opened hchosen
  rw [hnext, Option.map_some, hrecords, Option.some_inj] at hkept
  have hlength := congrArg List.length hkept
  simp at hlength

end Game

end Morris
