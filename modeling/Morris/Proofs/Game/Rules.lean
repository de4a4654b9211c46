import Mathlib.Data.List.TakeDrop
import Morris.Proofs.Game.Trail

/-!
# The rule of a game

A record leaves the rule in force, unless it chooses one (`Game.rule_command`). So a game goes by
the rule that the last choice among its records names, and by the rule that it began with if there
is none (`Game.rule_playAll`).

A choice of another rule begins a new list of records. Therefore every choice that is still among
the records of a game names the rule that the game goes by, and no record but the first can have
been accepted under another one (`Game.Loyal`).
-/

set_option autoImplicit false

namespace Morris

open Morris.Text (trim)

variable {text : String} {chosen : Rule}

/-! ## Texts that choose no rule -/

/-- A text that begins with another letter than a choice or an engine line chooses no rule. -/
theorem chosenRule_of_first {c : Char} {rest : List Char} (htext : text.toList = c :: rest)
    (hblank : Text.isBlank c = false) (hchoice : c ≠ 'r') (hline : c ≠ 'i') :
    chosenRule? text = none := by
  obtain ⟨kept, hkept⟩ := Text.trim_cons hblank rest
  have hrecord : recordOf text = c :: kept := by
    have hnone : engineLineRecord? (c :: kept) = none := by
      have hmark : Text.after? "info score ".toList (c :: kept) = none :=
        Text.after?_of_ne (Ne.symm hline) _ _
      rw [engineLineRecord?, hmark]
      rfl
    rw [recordOf, htext, hkept, hnone]
    rfl
  -- a choice would have to begin with its own letter
  by_contra hchosen
  obtain ⟨rule, hrule⟩ := Option.ne_none_iff_exists'.1 hchosen
  obtain ⟨_, hnumber, _⟩ := chosenRule_eq_some_iff.1 hrule
  obtain ⟨_, hfirst⟩ := cons_of_ruleNumber (trim_recordOf text) hnumber
  rw [hrecord] at hfirst
  exact hchoice (List.cons.inj hfirst).1

theorem chosenRule_text (m : Move) : chosenRule? m.text = none := by
  -- the record of a rule begins with an r, and the text of a move does not
  have hpoint : ∀ p : Point, ∃ rest, p.text.toList = '(' :: rest := fun p => by
    simp [Point.text, toString, String.toList_append]
  cases hkind : m.kind with
  | place =>
      obtain ⟨rest, hrest⟩ := hpoint m.target
      have htext : m.text.toList = '(' :: rest := by simp only [Move.text, hkind, hrest]
      exact chosenRule_of_first htext (by decide) (by decide) (by decide)
  | slide =>
      obtain ⟨rest, hrest⟩ := hpoint m.origin
      have htext : m.text.toList = '(' :: (rest ++ "->".toList ++ m.target.text.toList) := by
        simp [Move.text, hkind, hrest]
      exact chosenRule_of_first htext (by decide) (by decide) (by decide)
  | remove =>
      have htext : m.text.toList = '-' :: m.target.text.toList := by
        simp [Move.text, hkind]
      exact chosenRule_of_first htext (by decide) (by decide) (by decide)

/-- The record that a position gives of itself chooses no rule. -/
theorem chosenRule_record (pos : Position) : chosenRule? pos.record = none := by
  have hmove : chosenRule?
      (if pos.state.lastMove.isProper then pos.state.lastMove.text else "") = none := by
    split_ifs
    · exact chosenRule_text _
    · exact chosenRule_of_blank rfl
  have hgave : ∀ c : Colour, chosenRule? (gaveUpRecord c) = none := fun c => by
    cases c <;> decide +kernel
  have htime : ∀ c : Colour, chosenRule? (wonOnTimeRecord c) = none := fun c => by
    cases c <;> decide +kernel
  have hdrawn : chosenRule? repetitionRecord = none := by decide +kernel
  simp only [Position.record]
  generalize (if pos.state.lastMove.isProper then pos.state.lastMove.text else "") = ofMove at *
  split_ifs
  · exact hmove
  · split
    · exact hgave _
    · exact htime _
    · exact hdrawn
    · exact hmove

namespace Game

variable {rule : Rule} {g next last start : Game} {texts : List String}

theorem ofRule_of_valid (h : rule.Valid) :
    ofRule rule = .ok (ofPosition (.ofVariant (.ofRule rule))) := by
  rw [ofRule, Position.ofRule_of_valid h]
  rfl

/-! ## The rule after records -/

/-- A record leaves the rule in force unless it chooses one. -/
theorem rule_command (hnext : g.command text = some next) :
    next.position.rule = (chosenRule? text).getD g.position.rule := by
  have hdrawn (g : Game) : g.drawIfRepeated.position.rule = g.position.rule :=
    (sameMen_drawIfRepeated g).1.rule
  cases entered_of_command hnext with
  | cleared hblank =>
      rw [chosenRule_of_blank hblank]
      rfl
  | changed hchosen _ hpos => rw [hchosen, Option.getD_some, (rule_of_ofRule hpos).1]
  | restarted hchosen hpos => rw [hdrawn, hchosen, Option.getD_some, (rule_of_ofRule hpos).1]
  | moved hgoes _ happly =>
      rw [hdrawn, chosenRule_of_goes hgoes]
      exact congrArg Variant.rule (Position.variant_apply happly)
  | noted hgoes _ hsame =>
      rw [hdrawn, chosenRule_of_goes hgoes]
      exact hsame.rule

/-- The rule after records: the last one that they choose, or the one before them. -/
def ruleAfter (rule : Rule) (texts : List String) : Rule :=
  texts.foldl (fun rule text => (chosenRule? text).getD rule) rule

/-- A game goes by the last rule that its records choose. -/
theorem rule_playAll (hlast : g.playAll? texts = some last) :
    last.position.rule = ruleAfter g.position.rule texts := by
  induction texts generalizing g with
  | nil =>
      cases hlast
      rfl
  | cons text texts ih =>
      obtain ⟨next, hnext, hrest⟩ := Option.bind_eq_some_iff.1 hlast
      rw [ih hrest, rule_command hnext]
      rfl

/-- Records that can only choose one rule lead to that rule if one of them chooses it. -/
theorem ruleAfter_eq (hall : ∀ r ∈ texts, ∀ c, chosenRule? r = some c → c = chosen) (rule : Rule) :
    ruleAfter rule texts = if ∀ r ∈ texts, chosenRule? r = none then rule else chosen := by
  induction texts generalizing rule with
  | nil => simp [ruleAfter]
  | cons text texts ih =>
      have hrest := ih (fun r hr => hall r (List.mem_cons_of_mem text hr))
      cases htext : chosenRule? text with
      | none =>
          rw [ruleAfter, List.foldl_cons, htext, Option.getD_none, ← ruleAfter, hrest]
          simp [htext]
      | some c =>
          -- from here on every other choice is the same
          obtain rfl := hall text List.mem_cons_self c htext
          rw [ruleAfter, List.foldl_cons, htext, Option.getD_some, ← ruleAfter, hrest]
          simp [htext]

/-! ## Choices among the records -/

/-- The choices among the records name the rule in force, and the records after the first have been
accepted under it. -/
structure Loyal (g : Game) : Prop where
  chosen : ∀ r ∈ g.records, ∀ c, chosenRule? r = some c → c = g.position.rule
  before : ∀ s ∈ g.steps.tail, s.before.rule = g.position.rule

theorem loyal_of_nil (h : g.steps = []) : g.Loyal :=
  ⟨by simp [records, h], by simp [h]⟩

/-- What is recorded of an accepted text is the text, or chooses no rule. -/
theorem steps_accept (g : Game) (text : String) (pos : Position) :
    ∃ record, (record = text ∨ chosenRule? record = none) ∧
      ((g.accept text pos).steps = [⟨g.position, record⟩] ∨
        ((g.accept text pos).position.rule = g.position.rule ∧
          (g.accept text pos).steps = g.steps ++ [⟨g.position, record⟩])) := by
  rw [accept]
  split
  · exact ⟨text, Or.inl rfl, Or.inl rfl⟩
  · rename_i hrule
    refine ⟨_, ?_, Or.inr ⟨?_, steps_drawIfRepeated _⟩⟩
    · split_ifs
      · exact Or.inr (chosenRule_text _)
      · exact Or.inr (chosenRule_record pos)
      · exact Or.inl rfl
    · exact (sameMen_drawIfRepeated _).1.rule.trans (not_not.1 hrule).symm

theorem Loyal.added {s : Step} (h : g.Loyal) (hrule : next.position.rule = g.position.rule)
    (hsteps : next.steps = g.steps ++ [s]) (hbefore : s.before.rule = g.position.rule)
    (hrecord : ∀ c, chosenRule? s.record = some c → c = next.position.rule) : next.Loyal where
  chosen := by
    rw [records, hsteps, List.map_append, List.forall_mem_append]
    exact ⟨fun r hr c hc => (h.chosen r hr c hc).trans hrule.symm, by simpa using hrecord⟩
  before := by
    rw [hsteps, hrule]
    cases hold : g.steps with
    | nil => simp
    | cons first rest =>
        have hrest := h.before
        rw [hold, List.tail_cons] at hrest
        exact List.forall_mem_append.2 ⟨hrest, List.forall_mem_singleton.2 hbefore⟩

theorem Loyal.command (h : g.Loyal) (hnext : g.command text = some next) : next.Loyal := by
  have hrule := rule_command hnext
  simp only [Game.command] at hnext
  split at hnext
  · cases hnext
    exact loyal_of_nil rfl
  · obtain ⟨pos, _, rfl⟩ := Option.map_eq_some_iff.1 hnext
    obtain ⟨record, hrecord, hsteps⟩ := steps_accept g (Text.trimString text) pos
    -- the text that is recorded chooses the rule of the new position, if any
    have hthis : ∀ c, chosenRule? record = some c →
        c = (g.accept (Text.trimString text) pos).position.rule := by
      intro c hc
      rcases hrecord with rfl | hnone
      · rw [chosenRule?, recordOf_trimString, ← chosenRule?] at hc
        rw [hrule, hc, Option.getD_some]
      · rw [hnone] at hc
        cases hc
    rcases hsteps with hsteps | ⟨hsame, hsteps⟩
    · exact ⟨by simpa [records, hsteps] using hthis, by simp [hsteps]⟩
    · exact h.added hsame hsteps rfl hthis

theorem Loyal.rewind {n : Nat} (h : g.Loyal) (hnext : g.rewind? n = some next) : next.Loyal := by
  rcases rewound_of_rewind hnext with rfl | ⟨s, hthere, rfl⟩
  · exact h
  · cases n with
    | zero => exact loyal_of_nil rfl
    | succ n =>
        -- the position returned to is one of those after the first record
        rw [← List.getElem?_tail] at hthere
        have hrule := h.before s (List.mem_of_getElem? hthere)
        refine ⟨fun r hr c hc => ?_, fun s hs => ?_⟩
        · have hkept : r ∈ g.records := by
            obtain ⟨s, hs, rfl⟩ := List.mem_map.1 hr
            exact List.mem_map_of_mem (List.mem_of_mem_take hs)
          exact (h.chosen r hkept c hc).trans hrule.symm
        · have hkept : s ∈ (g.steps.take (n + 1)).tail := hs
          rw [List.tail_take_eq_take_tail] at hkept
          exact (h.before s (List.mem_of_mem_take hkept)).trans hrule.symm

theorem Loyal.undo (h : g.Loyal) (hnext : g.undo? = some next) : next.Loyal :=
  h.rewind (rewind_of_undo hnext)

/-- What the image of a record chooses, the record chooses. -/
theorem chosenRule_of_onRecord (t : Symmetry) {record : String}
    (h : chosenRule? (t.onRecord record) = some chosen) : chosenRule? record = some chosen := by
  rw [Symmetry.onRecord] at h
  split at h
  · rw [chosenRule_text] at h
    cases h
  · exact h

theorem Loyal.image (h : g.Loyal) (t : Symmetry) : (g.image t).Loyal := by
  have hposition (pos : Position) : (pos.image t).rule = pos.rule :=
    congrArg Variant.rule (Position.carried_image pos t).variant
  have hrule : (g.image t).position.rule = g.position.rule := hposition g.position
  have hsteps : (g.image t).steps =
      g.steps.map fun s => ⟨s.before.image t, t.onRecord s.record⟩ := rfl
  refine ⟨fun r hr c hc => ?_, ?_⟩
  · rw [records, hsteps, List.map_map] at hr
    obtain ⟨s, hs, rfl⟩ := List.mem_map.1 hr
    rw [hrule]
    exact h.chosen s.record (List.mem_map_of_mem hs) c (chosenRule_of_onRecord t hc)
  · rw [hsteps, hrule, ← List.map_tail, List.forall_mem_map]
    exact fun s hs => (hposition s.before).trans (h.before s hs)

theorem Reachable.loyal (h : Reachable rule g) : g.Loyal := by
  induction h with
  | begin hbegin =>
      obtain ⟨pos, _, rfl⟩ := Position.map_eq_ok_iff.1 hbegin
      exact loyal_of_nil rfl
  | command _ hnext ih => exact ih.command hnext
  | undo _ hnext ih => exact ih.undo hnext
  | rewind _ hnext ih => exact ih.rewind hnext
  | image t _ ih => exact ih.image t

/-- Records of a game played again from the first position of a rule lead to a game under that rule,
unless one of them chooses the rule that the records come from. -/
theorem rule_replayed (h : Reachable rule g) {other : Rule} (hstart : ofRule other = .ok start)
    (hplayed : texts <+: g.records) (hlast : start.playAll? texts = some last) :
    last.position.rule =
      if ∀ r ∈ texts, chosenRule? r = none then other else g.position.rule := by
  have hfirst : start.position.rule = other := by
    obtain ⟨pos, hpos, rfl⟩ := Position.map_eq_ok_iff.1 hstart
    exact (rule_of_ofRule hpos).1
  rw [rule_playAll hlast, hfirst]
  exact ruleAfter_eq (fun r hr => h.loyal.chosen r (hplayed.mem hr)) other

end Game

end Morris
