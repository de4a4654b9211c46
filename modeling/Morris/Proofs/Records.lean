import Mathlib.Data.List.DropRight
import Morris.Proofs.Accepted
import Morris.Proofs.Finished

/-!
# Records that read back

The texts that a game keeps are records themselves. The text of a move between live points reads
back as that move (`Move.OnBoard.writes`), and the records of a player who gives up or runs
out of time read back as that event. All of them are `Bare`: without blanks around them and not
wrapped in the line of an engine, so a position plays them as they stand.

`Position.Follows` says what an accepted record does unless it starts over: it is a move, a player
gives up or runs out of time, or it is one of the two records of a draw by repetition.
-/

set_option autoImplicit false

namespace Morris

open Morris.Text (trim after? before? cutAt?)

/-! ## Trimmed texts -/

namespace Text

/-- Trimming takes nothing off a text that neither begins nor ends with a blank. -/
theorem trim_eq_self {cs : List Char} (hfirst : ∀ h : 0 < cs.length, ¬ isBlank cs[0])
    (hlast : ∀ h : cs ≠ [], ¬ isBlank (cs.getLast h)) : trim cs = cs := by
  have hfront : cs.dropWhile isBlank = cs := List.dropWhile_eq_self_iff.2 hfirst
  rw [trim, hfront]
  exact List.rdropWhile_eq_self_iff.2 hlast

theorem trim_trim (cs : List Char) : trim (trim cs) = trim cs := by
  have hfront : trim cs <+: cs.dropWhile isBlank := List.rdropWhile_prefix isBlank _
  apply trim_eq_self
  · -- the first character is that of the text without the blanks in front
    intro h
    rw [hfront.getElem h]
    exact List.dropWhile_eq_self_iff.1 (List.dropWhile_idempotent isBlank _)
      (Nat.lt_of_lt_of_le h hfront.length_le)
  · exact List.rdropWhile_last_not isBlank (cs.dropWhile isBlank)

/-- Trimming a string trims its characters. -/
theorem toList_trimString (s : String) : (trimString s).toList = trim s.toList := by
  rw [trimString, String.toList_ofList]

theorem trimString_trimString (s : String) : trimString (trimString s) = trimString s := by
  rw [trimString, toList_trimString, trim_trim]
  rfl

theorem after?_of_ne {c d : Char} (h : c ≠ d) (mark cs : List Char) :
    after? (c :: mark) (d :: cs) = none := by
  simp [after?, h]

theorem cutAt?_eq_none {c : Char} {cs : List Char} (h : c ∉ cs) (mark : List Char) :
    cutAt? (c :: mark) cs = none := by
  induction cs with
  | nil => rfl
  | cons d cs ih =>
      obtain ⟨hd, hcs⟩ := List.ne_and_not_mem_of_not_mem_cons h
      simp only [cutAt?, after?_of_ne hd, ih hcs, Option.map_none]

/-- A mark is found where it stands if its first character does not occur before. -/
theorem cutAt?_append {c : Char} {mark left : List Char} (h : c ∉ left) (right : List Char) :
    cutAt? (c :: mark) (left ++ c :: mark ++ right) = some (left, right) := by
  induction left with
  | nil =>
      simp [cutAt?, after?]
  | cons d left ih =>
      obtain ⟨hd, hleft⟩ := List.ne_and_not_mem_of_not_mem_cons h
      simp only [List.cons_append, cutAt?, after?_of_ne hd]
      rw [ih hleft]
      rfl

end Text

/-! ## Points and moves -/

/-- The text of a live point reads back as the point, is put in parentheses and has no hyphen. -/
theorem Point.text_spec : ∀ p ∈ Point.all, Point.ofText? p.text.toList = some p ∧
    ∃ inner, p.text.toList = '(' :: inner ++ [')'] ∧ '-' ∉ p.text.toList := by
  have hfinite : ∀ p ∈ Point.all, Point.ofText? p.text.toList = some p ∧
      p.text.toList = '(' :: [Nat.digitChar p.ring, ',', Nat.digitChar p.place] ++ [')'] ∧
      '-' ∉ p.text.toList := by
    decide +kernel
  intro p hp
  obtain ⟨hread, hshape, harrow⟩ := hfinite p hp
  exact ⟨hread, _, hshape, harrow⟩

/-- A text is read as a live point or not at all. -/
theorem Point.onBoard_ofText? {cs : List Char} {p : Point} (h : Point.ofText? cs = some p) :
    Point.onBoard p = true := by
  simp only [Point.ofText?, Option.bind_eq_some_iff, Option.ite_none_right_eq_some,
    Option.some.injEq] at h
  obtain ⟨_, _, _, _, ring, _, place, _, hbounds, rfl⟩ := h
  show decide (8 ≤ 8 * ring + place - 1 ∧ 8 * ring + place - 1 < 32) = true
  rw [decide_eq_true_eq]
  constructor <;> omega

/-- A record as it stands: not blank, without blanks around it, and not in the line of an engine. -/
structure Bare (text : String) : Prop where
  full : text.toList ≠ []
  trimmed : trim text.toList = text.toList
  noLine : engineLineRecord? text.toList = none

/-- A bare text is its own record. -/
theorem Bare.recordOf_eq {text : String} (h : Bare text) : recordOf text = text.toList := by
  simp only [recordOf, h.trimmed, h.noLine, Option.getD_none]

/-- A text in parentheses, or after a sign, is bare. -/
theorem bare_of_ends {text : String} {c : Char} {inner : List Char}
    (h : text.toList = c :: inner ++ [')']) (hc : c = '(' ∨ c = '-') : Bare text := by
  -- neither a blank, which would be trimmed, nor the beginning of an engine line
  have hfirst : Text.isBlank c = false ∧ c ≠ 'i' := by
    rcases hc with rfl | rfl <;> decide
  refine ⟨by simp [h], ?_, ?_⟩
  · rw [h]
    apply Text.trim_eq_self
    · intro _
      simpa using hfirst.1
    · intro _
      rw [List.getLast_append_singleton]
      decide
  · have hline : after? "info score ".toList (c :: inner ++ [')']) = none :=
      Text.after?_of_ne (Ne.symm hfirst.2) _ _
    rw [engineLineRecord?, h, hline]
    rfl

namespace Move

/-- A text is read as a move between live points or not at all. -/
theorem onBoard_ofText? {cs : List Char} {m : Move} (h : ofText? cs = some m) : m.OnBoard := by
  simp only [ofText?, ofTrimmed?] at h
  split at h
  · obtain ⟨p, hp, rfl⟩ := Option.map_eq_some_iff.1 h
    exact .remove (Point.onBoard_ofText? hp)
  · split at h
    · obtain ⟨a, ha, hslide⟩ := Option.bind_eq_some_iff.1 h
      obtain ⟨b, hb, hne⟩ := Option.bind_eq_some_iff.1 hslide
      split at hne
      · cases hne
      · rename_i hab
        obtain rfl := Option.some.inj hne
        exact .slide (Point.onBoard_ofText? ha) (Point.onBoard_ofText? hb) hab
    · obtain ⟨p, hp, rfl⟩ := Option.map_eq_some_iff.1 h
      exact .place (Point.onBoard_ofText? hp)

/-! ## Texts of moves -/

section

variable {cs left right : List Char} {p a b : Point}

theorem ofText?_point (htrim : trim cs = cs) (hsign : after? ['-'] cs = .none)
    (hcut : cutAt? ['-', '>'] cs = .none) (hread : Point.ofText? cs = some p) :
    ofText? cs = some (place p) := by
  simp only [ofText?, htrim, ofTrimmed?, hsign, hcut, hread, Option.map_some]

theorem ofText?_sign (htrim : trim cs = cs) (hsign : after? ['-'] cs = some right)
    (hread : Point.ofText? right = some p) : ofText? cs = some (remove p) := by
  simp only [ofText?, htrim, ofTrimmed?, hsign, hread, Option.map_some]

/-- A text with an arrow is read as a slide between the points on its two sides. -/
theorem ofText?_arrow (htrim : trim cs = cs) (hsign : after? ['-'] cs = .none)
    (hcut : cutAt? ['-', '>'] cs = some (left, right)) (ha : Point.ofText? left = some a)
    (hb : Point.ofText? right = some b) (hne : a ≠ b) : ofText? cs = some (slide a b) := by
  simp only [ofText?, htrim, ofTrimmed?, hsign, hcut, ha, hb, Option.bind_some, if_neg hne]

end

/-- A text that is a bare record and reads back as a move. -/
structure Writes (s : String) (m : Move) : Prop where
  bare : Bare s
  read : ofText? s.toList = some m

/-- The text of a placement is read as the placement. -/
theorem writes_place {p : Point} (hp : Point.onBoard p = true) :
    Writes (place p).text (place p) := by
  obtain ⟨hkind, htarget⟩ := place_spec hp
  obtain ⟨hread, inner, hshape, harrow⟩ := Point.text_spec p ((Point.mem_all p).2 hp)
  have htext : (place p).text = p.text := by rw [text, hkind, htarget]
  have hbare : Bare p.text := bare_of_ends hshape (Or.inl rfl)
  have hsign : after? ['-'] p.text.toList = .none := by
    rw [hshape]
    exact Text.after?_of_ne (by decide) _ _
  have hcut : cutAt? ['-', '>'] p.text.toList = .none := Text.cutAt?_eq_none harrow _
  rw [htext]
  exact ⟨hbare, ofText?_point hbare.trimmed hsign hcut hread⟩

theorem writes_remove {p : Point} (hp : Point.onBoard p = true) :
    Writes (remove p).text (remove p) := by
  obtain ⟨hkind, htarget⟩ := remove_spec hp
  obtain ⟨hread, inner, hshape, _⟩ := Point.text_spec p ((Point.mem_all p).2 hp)
  have htext : (remove p).text.toList = '-' :: p.text.toList := by
    rw [text, hkind, htarget]
    simp
  have hbare : Bare (remove p).text := by
    have hends : (remove p).text.toList = '-' :: ('(' :: inner) ++ [')'] := by
      rw [htext, hshape]
      rfl
    exact bare_of_ends hends (Or.inr rfl)
  have hsign : after? ['-'] (remove p).text.toList = some p.text.toList := by
    rw [htext]
    simp [after?]
  exact ⟨hbare, ofText?_sign hbare.trimmed hsign hread⟩

/-- The text of a slide is read as the slide. -/
theorem writes_slide {a b : Point} (ha : Point.onBoard a = true) (hb : Point.onBoard b = true)
    (hne : a ≠ b) : Writes (slide a b).text (slide a b) := by
  obtain ⟨hkind, horigin, htarget⟩ := slide_spec ha hb
  obtain ⟨hreadA, innerA, hshapeA, harrow⟩ := Point.text_spec a ((Point.mem_all a).2 ha)
  obtain ⟨hreadB, innerB, hshapeB, _⟩ := Point.text_spec b ((Point.mem_all b).2 hb)
  have htext : (slide a b).text.toList = a.text.toList ++ ['-', '>'] ++ b.text.toList := by
    rw [text, hkind, horigin, htarget]
    simp
  have hbare : Bare (slide a b).text := by
    have hends : (slide a b).text.toList =
        '(' :: (innerA ++ [')', '-', '>', '('] ++ innerB) ++ [')'] := by
      rw [htext, hshapeA, hshapeB]
      simp
    exact bare_of_ends hends (Or.inl rfl)
  have hsign : after? ['-'] (slide a b).text.toList = .none := by
    rw [htext, hshapeA]
    exact Text.after?_of_ne (by decide) _ _
  have hcut : cutAt? ['-', '>'] (slide a b).text.toList =
      some (a.text.toList, b.text.toList) := by
    rw [htext]
    exact Text.cutAt?_append harrow _
  exact ⟨hbare, ofText?_arrow hbare.trimmed hsign hcut hreadA hreadB hne⟩

/-- The text of a move between live points writes the move. -/
theorem OnBoard.writes {m : Move} (h : m.OnBoard) : Writes m.text m := by
  cases h with
  | place hp => exact writes_place hp
  | slide ha hb hne => exact writes_slide ha hb hne
  | remove hp => exact writes_remove hp

end Move

/-! ## Records of events -/

theorem trim_ne_nil_of_goes {text : String} (hgoes : ¬ StartsOver text) :
    trim text.toList ≠ [] :=
  fun hblank => hgoes (Or.inl hblank)

/-- The records of the two players read back as the events that they tell of. -/
theorem eventRecords_spec (c : Side) :
    (Bare (gaveUpRecord c.colour) ∧ Move.ofText? (gaveUpRecord c.colour).toList = none ∧
      playerBetween? "Player" " give up!" (gaveUpRecord c.colour).toList = some c.colour) ∧
    (Bare (wonOnTimeRecord c.colour) ∧ Move.ofText? (wonOnTimeRecord c.colour).toList = none ∧
      playerBetween? "Player" " give up!" (wonOnTimeRecord c.colour).toList = none ∧
      playerBetween? "Time over. Player" " win!" (wonOnTimeRecord c.colour).toList =
        some c.colour) := by
  cases c <;>
    exact ⟨⟨⟨by decide +kernel, by decide +kernel, by decide +kernel⟩, by decide +kernel⟩,
      ⟨by decide +kernel, by decide +kernel, by decide +kernel⟩, by decide +kernel⟩

/-- The note of a draw by repetition stands for itself and is no record of another kind. -/
theorem repetitionRecord_only : Bare repetitionRecord ∧
    Move.ofText? repetitionRecord.toList = none ∧
    playerBetween? "Player" " give up!" repetitionRecord.toList = none ∧
    playerBetween? "Time over. Player" " win!" repetitionRecord.toList = none ∧
    ruleNumber? repetitionRecord.toList = none :=
  ⟨⟨by decide +kernel, by decide +kernel, by decide +kernel⟩, by decide +kernel⟩

/-- Records name the two sides only. -/
theorem exists_side_of_playerBetween {before after : String} {cs : List Char} {c : Colour}
    (h : playerBetween? before after cs = some c) : ∃ side : Side, c = side.colour := by
  obtain ⟨digits, _, hdigits⟩ := Option.bind_eq_some_iff.1 h
  obtain ⟨n, _, hn⟩ := Option.bind_eq_some_iff.1 hdigits
  rcases n with _ | _ | _ | n
  · cases hn
  · cases hn
    exact ⟨.white, rfl⟩
  · cases hn
    exact ⟨.black, rfl⟩
  · cases hn

namespace Position

variable {pos next : Position}

/-- The record of a move makes the move. -/
theorem commandBody_text {m : Move} (h : m.OnBoard) :
    pos.commandBody m.text.toList = (pos.apply m).toOption := by
  rw [commandBody, h.writes.read]

theorem commandBody_gaveUpRecord (c : Side) :
    pos.commandBody (gaveUpRecord c.colour).toList = (pos.resign c.colour).toOption := by
  obtain ⟨⟨_, hmove, hplayer⟩, _⟩ := eventRecords_spec c
  simp only [commandBody, hmove, hplayer]

theorem commandBody_wonOnTimeRecord (c : Side) :
    pos.commandBody (wonOnTimeRecord c.colour).toList =
      (pos.timeOver c.colour.opponent).toOption := by
  obtain ⟨_, _, hmove, hgave, hplayer⟩ := eventRecords_spec c
  simp only [commandBody, hmove, hgave, hplayer]

theorem commandBody_repetitionRecord (h : pos.rule.threefoldRepetition = true) :
    pos.commandBody repetitionRecord.toList = some pos := by
  obtain ⟨_, hmove, hgave, htime, hnumber⟩ := repetitionRecord_only
  simp [commandBody, hmove, hgave, htime, hnumber, h]

theorem commandBody_drawRecord (h : pos.rule.threefoldRepetition = true) :
    pos.commandBody drawRecord.toList = some pos.declareRepetition := by
  obtain ⟨_, _, _, hmove, hgave, htime, hnumber, hother⟩ := drawRecord_only
  simp [commandBody, hmove, hgave, htime, hnumber, hother, h]

theorem finish_ne {winner : Colour} {ending : Ending} (h : pos.isOver = false)
    (hnext : next = pos.finish winner ending) : next.state ≠ pos.state := by
  subst hnext
  intro hsame
  have hphase : Phase.finished = pos.state.phase := congrArg State.phase hsame
  simp [isOver, ← hphase] at h

/-- What an accepted record that does not start over leads to. -/
inductive Follows (pos : Position) (cs : List Char) : Position → Prop
  | moved {m : Move} {next : Position} : m.OnBoard → pos.apply m = .ok next → Follows pos cs next
  | gaveUp {loser : Side} {next : Position} : pos.resign loser.colour = .ok next →
      Follows pos cs next
  | timeUp {winner : Side} {next : Position} : pos.timeOver winner.colour.opponent = .ok next →
      Follows pos cs next
  /-- The note of a draw by repetition changes nothing. -/
  | noted : cs = repetitionRecord.toList → pos.rule.threefoldRepetition = true → Follows pos cs pos
  /-- A draw is claimed, and granted at any time. -/
  | drawn : cs = drawRecord.toList → pos.rule.threefoldRepetition = true →
      Follows pos cs pos.declareRepetition

/-- The inversion of `commandBody` for records that choose no rule. -/
theorem follows_of_commandBody {cs : List Char}
    (hrule : ∀ index next, ruleNumber? cs = some (index + 1) →
      (Rule.preset index).bind ofRule ≠ .ok next)
    (h : pos.commandBody cs = some next) : pos.Follows cs next := by
  cases commanded_of_commandBody h with
  | moved hmove happly => exact .moved (Move.onBoard_ofText? hmove) happly
  | gaveUp _ hloser hend =>
      obtain ⟨side, rfl⟩ := exists_side_of_playerBetween hloser
      exact .gaveUp hend
  | timeUp _ hwinner hend =>
      obtain ⟨side, rfl⟩ := exists_side_of_playerBetween hwinner
      exact .timeUp hend
  | chosen hnumber hstart => exact absurd hstart (hrule _ next hnumber)
  | noted _ hnote hthree => exact .noted hnote hthree
  | drawn _ hdraw hthree => exact .drawn hdraw hthree

/-- A text that is not blank plays the record in it. -/
theorem command_of_full {text : String} (h : trim text.toList ≠ []) :
    pos.command text = pos.commandBody (recordOf text) := by
  simp only [command, recordOf, List.isEmpty_eq_false_iff.2 h, Bool.false_eq_true, if_false]

/-- A position drawn by repetition takes only the two records of such a draw, without effect. -/
theorem Follows.of_drawn {cs : List Char} (h : pos.Follows cs next)
    (hdrawn : pos.declareRepetition = pos) :
    next = pos ∧ pos.rule.threefoldRepetition = true ∧
      (cs = repetitionRecord.toList ∨ cs = drawRecord.toList) := by
  -- a position that the declaration does not change is over already
  have hover : pos.state.phase = .finished := by
    rw [← hdrawn]
    rfl
  cases h with
  | @moved m _ _ happly =>
      obtain ⟨refusal, hrefused⟩ := apply_of_finished hover m
      rw [hrefused] at happly
      cases happly
  | gaveUp hresign =>
      rw [resign, endAgainst_of_finished hover] at hresign
      cases hresign
  | timeUp htime =>
      rw [timeOver, endAgainst_of_finished hover] at htime
      cases htime
  | noted hnote hthree => exact ⟨rfl, hthree, Or.inl hnote⟩
  | drawn hclaim hthree => exact ⟨hdrawn, hthree, Or.inr hclaim⟩

/-- The inversion of `command` for records that neither start over nor choose a rule. -/
theorem follows_of_command {text : String} (hgoes : ¬ StartsOver text)
    (h : pos.command text = some next) : pos.Follows (recordOf text) next := by
  rw [command_of_full (trim_ne_nil_of_goes hgoes)] at h
  exact follows_of_commandBody
    (fun index next hnumber hnext => hgoes (Or.inr ⟨index, next, hnumber, hnext⟩)) h

theorem command_of_bare {text : String} (h : Bare text) :
    pos.command text = pos.commandBody text.toList := by
  rw [command_of_full (by rw [h.trimmed]; exact h.full), h.recordOf_eq]

end Position

end Morris
