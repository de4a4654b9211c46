import Mathlib.Data.Nat.Digits.Defs
import Morris.Proofs.Records

/-!
# The grammar of move records

What a record of a move may look like, told without saying how it is read. A number is written by
decimal digits, perhaps after a plus sign and with leading zeros (`Text.Numeral`); a point by its
ring and its place in parentheses (`Point.Written`); and a move by one point, by two points with an
arrow between them or by a point after a minus sign (`Move.Written`). Blanks may stand around each
number, each point and the whole. Main statement: `Move.parse_eq_ok_iff_written`, by which reading
accepts exactly the texts of this grammar, and each as the move that it writes.
-/

set_option autoImplicit false

namespace Morris

/-! ## Texts -/

namespace Text

/-- Blanks and nothing else. -/
def Blanks (cs : List Char) : Prop := ∀ c ∈ cs, isBlank c = true

/-- A text with blanks around it, if any. -/
def Padded (core cs : List Char) : Prop :=
  ∃ before after, Blanks before ∧ Blanks after ∧ cs = before ++ core ++ after

/-- A text that neither begins nor ends with a blank. -/
structure Tight (cs : List Char) : Prop where
  first : ∀ h : cs ≠ [], isBlank (cs.head h) = false
  last : ∀ h : cs ≠ [], isBlank (cs.getLast h) = false

/-- What is left of a text when all blanks around it are taken away. -/
structure Trimmed (core cs : List Char) : Prop extends Tight core where
  padded : Padded core cs

/-- The number that decimal digits stand for. -/
def decimalValue (ds : List Char) : Nat :=
  Nat.ofDigits 10 (ds.reverse.map fun d => d.toNat - '0'.toNat)

/-- Decimal digits, at least one. -/
structure Digits (ds : List Char) : Prop where
  full : ds ≠ []
  decimal : ∀ d ∈ ds, '0' ≤ d ∧ d ≤ '9'

/-- The texts that write a number. -/
inductive Numeral : Nat → List Char → Prop
  | plain {ds : List Char} : Digits ds → Numeral (decimalValue ds) ds
  | plus {ds : List Char} : Digits ds → Numeral (decimalValue ds) ('+' :: ds)

variable {core cs left right ds : List Char} {c : Char} {n : Nat}

/-! ## Blanks around a text -/

/-- Trimming takes away the blanks around a text. -/
theorem trimmed_trim (cs : List Char) : Trimmed (trim cs) cs where
  first h := by
    have hfront : trim cs <+: cs.dropWhile isBlank := List.rdropWhile_prefix isBlank _
    rw [hfront.head h]
    exact List.head_dropWhile_not isBlank _
  last h := eq_false_of_ne_true (List.rdropWhile_last_not isBlank (cs.dropWhile isBlank) h)
  padded := by
    have hend : trim cs ++ (cs.dropWhile isBlank).rtakeWhile isBlank = cs.dropWhile isBlank :=
      List.rdropWhile_append_rtakeWhile
    refine ⟨cs.takeWhile isBlank, (cs.dropWhile isBlank).rtakeWhile isBlank,
      fun c hc => List.mem_takeWhile_imp hc, fun c hc => List.mem_rtakeWhile_imp hc, ?_⟩
    rw [List.append_assoc, hend, List.takeWhile_append_dropWhile]

theorem trimEnd_append_blanks (h : Blanks right) (cs : List Char) :
    trimEnd (cs ++ right) = trimEnd cs := by
  have hback : ∀ c ∈ right.reverse, isBlank c = true := fun c hc => h c (List.mem_reverse.1 hc)
  rw [trimEnd, List.reverse_append, List.dropWhile_append_of_pos hback, trimEnd]

/-- Nothing else is left when all blanks around a text are taken away. -/
theorem Trimmed.eq_trim (h : Trimmed core cs) : trim cs = core := by
  obtain ⟨before, after, hbefore, hafter, rfl⟩ := h.padded
  rw [trim, List.append_assoc, List.dropWhile_append_of_pos hbefore]
  by_cases hcore : core = []
  · have hnone : after.dropWhile isBlank = [] := List.dropWhile_eq_nil_iff.2 hafter
    rw [hcore, List.nil_append, hnone]
    rfl
  · have hkept : (core ++ after).dropWhile isBlank = core ++ after := by
      obtain ⟨c, rest, rfl⟩ := List.exists_cons_of_ne_nil hcore
      exact List.dropWhile_cons_of_neg (by simpa using h.first hcore)
    rw [hkept, trimEnd_append_blanks hafter]
    exact List.rdropWhile_eq_self_iff.2 fun hne => by simpa using h.last hne

/-! ## Cuts -/

theorem after?_eq_none (h : c ∉ cs) (mark : List Char) : after? (c :: mark) cs = none := by
  cases cs with
  | nil => rfl
  | cons d cs => exact after?_of_ne (List.ne_and_not_mem_of_not_mem_cons h).1 mark cs

theorem after?_eq_some_iff {mark : List Char} :
    after? mark cs = some right ↔ cs = mark ++ right := by
  simp only [after?, Option.ite_none_right_eq_some, List.isPrefixOf_iff_prefix, Option.some.injEq]
  constructor
  · rintro ⟨⟨rest, rfl⟩, rfl⟩
    rw [List.drop_left]
  · rintro rfl
    exact ⟨List.prefix_append mark right, List.drop_left⟩

theorem before?_eq_some_iff {mark : List Char} :
    before? mark cs = some left ↔ cs = left ++ mark := by
  simp only [before?, Option.ite_none_right_eq_some, List.isSuffixOf_iff_suffix, Option.some.injEq]
  constructor
  · rintro ⟨⟨rest, rfl⟩, rfl⟩
    simp
  · rintro rfl
    exact ⟨List.suffix_append left mark, by simp⟩

/-- What stands before and after a mark makes up the text together with it. -/
theorem eq_of_cutAt? {mark : List Char} (h : cutAt? mark cs = some (left, right)) :
    cs = left ++ mark ++ right := by
  -- on the text: the mark is here, or further on
  induction cs generalizing left with
  | nil =>
      simp only [cutAt?] at h
      split at h
      · rename_i hempty
        cases h
        rw [List.isEmpty_iff.1 hempty]
        rfl
      · cases h
  | cons c cs ih =>
      simp only [cutAt?] at h
      split at h
      · rename_i rest hrest
        cases h
        exact after?_eq_some_iff.1 hrest
      · obtain ⟨⟨left', right'⟩, hcut, heq⟩ := Option.map_eq_some_iff.1 h
        cases heq
        rw [ih hcut]
        rfl

/-! ## Numbers -/

theorem decimalValue_append (ds : List Char) (d : Char) :
    decimalValue (ds ++ [d]) = 10 * decimalValue ds + (d.toNat - '0'.toNat) := by
  simp only [decimalValue, List.reverse_append, List.reverse_singleton, List.singleton_append,
    List.map_cons, Nat.ofDigits_cons]
  exact Nat.add_comm _ _

theorem digit?_eq_some_iff : digit? c = some n ↔
    ('0' ≤ c ∧ c ≤ '9') ∧ c.toNat - '0'.toNat = n := by
  simp only [digit?, Option.ite_none_right_eq_some, Option.some.injEq]

theorem foldl_digit?_eq_some_iff :
    cs.foldl (fun acc c => acc.bind fun n => (digit? c).map fun d => 10 * n + d) (some 0) = some n ↔
      (∀ d ∈ cs, '0' ≤ d ∧ d ≤ '9') ∧ decimalValue cs = n := by
  -- from the right, since the fold reads the last digit last
  induction cs using List.reverseRecOn generalizing n with
  | nil => simp [decimalValue]
  | append_singleton cs c ih =>
      rw [List.foldl_append, List.foldl_cons, List.foldl_nil, decimalValue_append]
      simp only [Option.bind_eq_some_iff, Option.map_eq_some_iff, ih, digit?_eq_some_iff]
      constructor
      · rintro ⟨_, ⟨hall, rfl⟩, _, ⟨hc, rfl⟩, rfl⟩
        refine ⟨fun d hd => ?_, rfl⟩
        rcases List.mem_append.1 hd with hd | hd
        · exact hall d hd
        · rw [List.mem_singleton.1 hd]
          exact hc
      · rintro ⟨hall, rfl⟩
        exact ⟨_, ⟨fun d hd => hall d (List.mem_append_left _ hd), rfl⟩, _,
          ⟨hall c (by simp), rfl⟩, rfl⟩

theorem digits?_eq_some_iff : digits? cs = some n ↔ Digits cs ∧ decimalValue cs = n := by
  simp only [digits?]
  split
  · rename_i hempty
    refine ⟨nofun, fun h => absurd (List.isEmpty_iff.1 hempty) h.1.full⟩
  · rename_i hfull
    rw [foldl_digit?_eq_some_iff]
    exact and_congr_left fun _ =>
      ⟨fun hall => ⟨fun hnil => hfull (List.isEmpty_iff.2 hnil), hall⟩, fun h => h.decimal⟩

/-- A number is read from the texts that write it, as long as it lies below the bound. -/
theorem natural?_eq_some_iff {bound : Nat} :
    natural? bound cs = some n ↔ Numeral n cs ∧ n < bound := by
  have hplus : ¬ ('0' ≤ '+' ∧ '+' ≤ '9') := by decide
  simp only [natural?, Option.filter_eq_some_iff, decide_eq_true_eq]
  refine and_congr_left fun _ => ?_
  split
  · rename_i rest
    rw [digits?_eq_some_iff]
    constructor
    · rintro ⟨hdigits, rfl⟩
      exact .plus hdigits
    · intro h
      cases h with
      -- a digit is no sign
      | plain hdigits => exact absurd (hdigits.decimal '+' List.mem_cons_self) hplus
      | plus hdigits => exact ⟨hdigits, rfl⟩
  · rename_i hnot
    rw [digits?_eq_some_iff]
    constructor
    · rintro ⟨hdigits, rfl⟩
      exact .plain hdigits
    · intro h
      cases h with
      | plain hdigits => exact ⟨hdigits, rfl⟩
      | plus hdigits => exact absurd rfl (hnot _)

/-- The characters of a numeral are digits and the plus sign, none of them blank. -/
theorem Numeral.chars (h : Numeral n cs) :
    ∀ c ∈ cs, isBlank c = false ∧ c ≠ ',' ∧ c ≠ '-' := by
  -- blanks, commas and signs all lie outside the codes of the digits
  have hdigit : ∀ d : Char, '0' ≤ d ∧ d ≤ '9' → isBlank d = false ∧ d ≠ ',' ∧ d ≠ '-' := by
    intro d hd
    have hbounds : 48 ≤ d.toNat ∧ d.toNat ≤ 57 := hd
    refine ⟨?_, ?_, ?_⟩
    · simp only [isBlank, decide_eq_false_iff_not]
      omega
    · rintro rfl
      exact absurd hbounds (by decide)
    · rintro rfl
      exact absurd hbounds (by decide)
  cases h with
  | plain hdigits => exact fun c hc => hdigit c (hdigits.decimal c hc)
  | plus hdigits =>
      intro c hc
      rcases List.mem_cons.1 hc with rfl | hc
      · decide
      · exact hdigit c (hdigits.decimal c hc)

/-- A numeral is what is left of it when the blanks around it are taken away. -/
theorem Numeral.trimmed (h : Numeral n core) (hpadded : Padded core cs) : Trimmed core cs :=
  ⟨⟨fun hne => (h.chars _ (List.head_mem hne)).1, fun hne => (h.chars _ (List.getLast_mem hne)).1⟩,
    hpadded⟩

/-- Blanks around a text bring in no character that is not blank. -/
theorem Padded.mem (h : Padded core cs) (hc : c ∈ cs) : isBlank c = true ∨ c ∈ core := by
  obtain ⟨before, after, hbefore, hafter, rfl⟩ := h
  rcases List.mem_append.1 hc with hc | hc
  · rcases List.mem_append.1 hc with hc | hc
    · exact Or.inl (hbefore c hc)
    · exact Or.inr hc
  · exact Or.inl (hafter c hc)

/-- A text of two marks with something between them is tight if the marks are no blanks. -/
theorem tight_between {first last : Char} (hfirst : isBlank first = false)
    (hlast : isBlank last = false) (inner : List Char) : Tight (first :: inner ++ [last]) :=
  ⟨fun _ => hfirst, fun _ => by rw [List.getLast_append_singleton]; exact hlast⟩

end Text

open Morris.Text (trim after? before? cutAt? natural? Padded Trimmed Numeral isBlank)

/-! ## Points -/

/-- The texts that write a point: its ring and its place in parentheses, with a comma between them.
-/
inductive Point.Written : Point → List Char → Prop
  | mk {ring place : Nat} {ringText placeText left right cs : List Char} :
      (1 ≤ ring ∧ ring ≤ 3) → (1 ≤ place ∧ place ≤ 8) →
      Numeral ring ringText → Padded ringText left →
      Numeral place placeText → Padded placeText right →
      Padded ('(' :: (left ++ ',' :: right) ++ [')']) cs → Written (8 * ring + place - 1) cs

/-- The texts that write a move: a point for a placement, two points with an arrow between them for
a slide, and a point after a minus sign for a removal. -/
inductive Move.Written : Move → List Char → Prop
  | place {p : Point} {cs : List Char} : p.Written cs → Written (.place p) cs
  | slide {a b : Point} {left right : List Char} : a.Written left → b.Written right → a ≠ b →
      Written (.slide a b) (left ++ ['-', '>'] ++ right)
  | remove {p : Point} {cs : List Char} : p.Written cs → Written (.remove p) ('-' :: cs)

namespace Point

variable {p : Point} {cs : List Char}

theorem written_of_ofText? (h : ofText? cs = some p) : p.Written cs := by
  simp only [ofText?, Option.bind_eq_some_iff, Option.ite_none_right_eq_some,
    Option.some.injEq, Text.after?_eq_some_iff, Text.before?_eq_some_iff] at h
  obtain ⟨inner, ⟨rest, htrim, rfl⟩, ⟨left, right⟩, hcut, ring, hring, place, hplace,
    ⟨hringBounds, hplaceBounds⟩, rfl⟩ := h
  rw [Text.natural?_eq_some_iff] at hring hplace
  have hinner := Text.eq_of_cutAt? hcut
  have hpadded := (Text.trimmed_trim cs).padded
  rw [htrim, hinner] at hpadded
  refine .mk hringBounds hplaceBounds hring.1 (Text.trimmed_trim left).padded hplace.1
    (Text.trimmed_trim right).padded ?_
  simpa using hpadded

theorem Written.ofText?_eq (h : p.Written cs) : ofText? cs = some p := by
  cases h with
  | @mk ring place ringText placeText left right _ hringBounds hplaceBounds hring hleft hplace
      hright hpadded =>
    have htrim : trim cs = '(' :: (left ++ ',' :: right) ++ [')'] :=
      Trimmed.eq_trim ⟨Text.tight_between (by decide) (by decide) _, hpadded⟩
    have hafter : after? ['('] (trim cs) = some (left ++ ',' :: right ++ [')']) := by
      rw [Text.after?_eq_some_iff, htrim]
      rfl
    have hbefore : before? [')'] (left ++ ',' :: right ++ [')']) = some (left ++ ',' :: right) :=
      Text.before?_eq_some_iff.2 rfl
    -- the comma is the first one, since a number has none
    have hcomma : ',' ∉ left := by
      intro hmem
      rcases hleft.mem hmem with hblank | hchar
      · exact absurd hblank (by decide)
      · exact (hring.chars ',' hchar).2.1 rfl
    have hcut : cutAt? [','] (left ++ ',' :: right) = some (left, right) := by
      rw [List.append_cons]
      exact Text.cutAt?_append hcomma right
    have hsize : UInt64.size = 2 ^ 64 := rfl
    have hringRead : natural? UInt64.size (trim left) = some ring := by
      rw [(hring.trimmed hleft).eq_trim]
      exact Text.natural?_eq_some_iff.2 ⟨hring, by omega⟩
    have hplaceRead : natural? UInt64.size (trim right) = some place := by
      rw [(hplace.trimmed hright).eq_trim]
      exact Text.natural?_eq_some_iff.2 ⟨hplace, by omega⟩
    simp only [ofText?, hafter, hbefore, hcut, hringRead, hplaceRead, Option.bind_some,
      if_pos (And.intro hringBounds hplaceBounds)]
    rfl

/-- A point is read from exactly the texts that write it. -/
theorem ofText?_eq_some_iff : ofText? cs = some p ↔ p.Written cs :=
  ⟨written_of_ofText?, Written.ofText?_eq⟩

/-- The text of a point has no hyphen. -/
theorem Written.no_hyphen (h : p.Written cs) : '-' ∉ cs := by
  intro hmem
  cases h with
  | mk _ _ hring hleft hplace hright hpadded =>
      have hblank : ¬ isBlank '-' = true := by decide
      have hinner := (hpadded.mem hmem).resolve_left hblank
      simp only [List.cons_append, List.mem_cons, List.mem_append,
        (by decide : ('-' = '(') = False), (by decide : ('-' = ',') = False),
        (by decide : ('-' = ')') = False), false_or, or_false, List.not_mem_nil] at hinner
      rcases hinner with hmem | hmem
      · exact (hring.chars '-' ((hleft.mem hmem).resolve_left hblank)).2.2 rfl
      · exact (hplace.chars '-' ((hright.mem hmem).resolve_left hblank)).2.2 rfl

/-- The text of a point is not empty. -/
theorem Written.ne_nil (h : p.Written cs) : cs ≠ [] := by
  rintro rfl
  cases h with
  | mk _ _ _ _ _ _ hpadded =>
      obtain ⟨before, after, -, -, hnil⟩ := hpadded
      simp at hnil

end Point

/-! ## Moves -/

namespace Move

variable {m : Move} {cs : List Char}

theorem written_of_ofTrimmed? (h : ofTrimmed? cs = some m) : m.Written cs := by
  simp only [ofTrimmed?] at h
  split at h
  · rename_i rest hsign
    obtain ⟨p, hp, rfl⟩ := Option.map_eq_some_iff.1 h
    rw [Text.after?_eq_some_iff.1 hsign]
    exact .remove (Point.ofText?_eq_some_iff.1 hp)
  · split at h
    · rename_i left right hcut
      simp only [Option.bind_eq_some_iff, Option.ite_none_left_eq_some, Option.some.injEq] at h
      obtain ⟨a, ha, b, hb, hne, rfl⟩ := h
      rw [Text.eq_of_cutAt? hcut]
      exact .slide (Point.ofText?_eq_some_iff.1 ha) (Point.ofText?_eq_some_iff.1 hb) hne
    · obtain ⟨p, hp, rfl⟩ := Option.map_eq_some_iff.1 h
      exact .place (Point.ofText?_eq_some_iff.1 hp)

theorem Written.ofTrimmed?_eq (h : m.Written cs) : ofTrimmed? cs = some m := by
  cases h with
  | @place p _ hp =>
      have hsign : after? ['-'] cs = .none := Text.after?_eq_none hp.no_hyphen []
      have hcut : cutAt? ['-', '>'] cs = .none := Text.cutAt?_eq_none hp.no_hyphen ['>']
      simp only [ofTrimmed?, hsign, hcut, hp.ofText?_eq, Option.map_some]
  | @slide a b left right ha hb hne =>
      -- the first point stands before the arrow, so the text does not begin with the minus sign
      have hsign : after? ['-'] (left ++ ['-', '>'] ++ right) = .none := by
        obtain ⟨c, rest, rfl⟩ := List.exists_cons_of_ne_nil ha.ne_nil
        exact Text.after?_of_ne (List.ne_and_not_mem_of_not_mem_cons ha.no_hyphen).1 [] _
      have hcut : cutAt? ['-', '>'] (left ++ ['-', '>'] ++ right) = some (left, right) :=
        Text.cutAt?_append ha.no_hyphen right
      simp only [ofTrimmed?, hsign, hcut, ha.ofText?_eq, hb.ofText?_eq, Option.bind_some,
        if_neg hne]
  | @remove p rest hp =>
      have hsign : after? ['-'] ('-' :: rest) = some rest := Text.after?_eq_some_iff.2 rfl
      simp only [ofTrimmed?, hsign, hp.ofText?_eq, Option.map_some]

/-- A move is read from exactly the texts that write it with blanks around them. -/
theorem ofText?_eq_some_iff :
    ofText? cs = some m ↔ ∃ core, Trimmed core cs ∧ m.Written core := by
  constructor
  · intro h
    exact ⟨trim cs, Text.trimmed_trim cs, written_of_ofTrimmed? h⟩
  · rintro ⟨core, hcore, hwritten⟩
    rw [ofText?, hcore.eq_trim]
    exact hwritten.ofTrimmed?_eq

theorem parse_eq_ok {s : String} : parse s = .ok m ↔ ofText? s.toList = some m := by
  rw [parse]
  split
  · rename_i hread
    rw [hread, Except.ok.injEq, Option.some.injEq]
  · rename_i hnone
    rw [hnone]
    exact ⟨nofun, nofun⟩

/-- A move between live points is a proper one. -/
theorem OnBoard.isProper (h : m.OnBoard) : m.isProper = true := by
  cases h with
  | place hp => exact isProper_place hp
  | slide ha hb hne => exact isProper_slide ha hb hne
  | remove hp => exact isProper_remove hp

/-- A record is read as a move exactly if, apart from blanks around it, it is one of the texts that
write that move; the move is then proper, and its own text reads back as the same move. -/
theorem parse_eq_ok_iff_written (s : String) (m : Move) :
    (parse s = .ok m ↔ ∃ core, Trimmed core s.toList ∧ m.Written core) ∧
      (parse s = .ok m → m.isProper = true ∧ parse m.text = .ok m) := by
  refine ⟨parse_eq_ok.trans ofText?_eq_some_iff, fun h => ?_⟩
  have hboard : m.OnBoard := onBoard_ofText? (parse_eq_ok.1 h)
  exact ⟨hboard.isProper, parse_eq_ok.2 hboard.writes.read⟩

/-- The texts of the grammar with leading zeros, a plus sign and blanks of several kinds in them. -/
theorem parse_eq_ok_iff_written_slide : parse " \u3000(+01 , 007)->( 3,8)\n" = .ok (slide 14 31) ∧
    (slide 14 31).isProper = true ∧ parse (slide 14 31).text = .ok (slide 14 31) := by
  have hread : parse " \u3000(+01 , 007)->( 3,8)\n" = .ok (slide 14 31) := by decide +kernel
  exact ⟨hread, (parse_eq_ok_iff_written _ _).2 hread⟩

end Move

end Morris
