import Morris.Engine.Options
import Morris.Proofs.Game.Choice

/-!
# Settings of a rule by name

A setting of a rule takes its name and its value with any blanks around them
(`Rule.setOption_trimString`), and refuses a value that is blank. No setting has the name of an
engine option, so an engine knows none of them (`EngineOptions.setOption_of_rule`).
-/

set_option autoImplicit false

namespace Morris

/-! ## Texts with blanks around them -/

namespace Text

/-- Blanks are taken off the end of the last part alone, unless it is blank. -/
theorem trimEnd_append {ys : List Char} (h : trimEnd ys ≠ []) (xs : List Char) :
    trimEnd (xs ++ ys) = xs ++ trimEnd ys := by
  have hkept : (ys.reverse.dropWhile isBlank).isEmpty = false := by
    simpa [trimEnd] using h
  rw [trimEnd, List.reverse_append, List.dropWhile_append, hkept]
  simp [trimEnd]

theorem folded_trimString (s : String) : folded (trimString s) = folded s := by
  rw [folded, toList_trimString, trim_trim, folded]

theorem naturalText?_trimString (bound : Nat) (s : String) :
    naturalText? bound (trimString s) = naturalText? bound s := by
  rw [naturalText?, toList_trimString, trim_trim, naturalText?]

theorem switch?_trimString (on off : List String) (s : String) :
    switch? on off (trimString s) = switch? on off s := by
  simp only [switch?, folded_trimString]

theorem choiceText?_trimString {α : Type} (choices : List (String × α)) (s : String) :
    choiceText? choices (trimString s) = choiceText? choices s := by
  simp only [choiceText?, naturalText?_trimString, folded_trimString]

theorem trimString_of_blank {s : String} (h : trim s.toList = []) : trimString s = "" := by
  rw [trimString, h, String.ofList_nil]

end Text

open Morris.Text (trim trimString)

namespace Rule

variable {rule next : Rule} {name value : String}

namespace Setting

variable {setting : Setting}

/-- A setting reads a value without the blanks around it. -/
theorem change_trimString (h : setting ∈ all) (value : String) :
    setting.change (trimString value) = setting.change value := by
  have hall : ∀ s ∈ all, s.change (trimString value) = s.change value := by
    simp [all, count, switch, choice, Text.naturalText?_trimString, Text.switch?_trimString,
      Text.choiceText?_trimString]
  exact hall setting h

/-- A setting refuses a blank value. -/
theorem change_of_blank (h : setting ∈ all) (hblank : trim value.toList = []) (rule : Rule) :
    setting.change value rule = none := by
  -- a blank value is read as the empty one, which is no number, no switch and no choice
  have hall : ∀ s ∈ all, s.change "" rule = none := by
    simp only [all, List.forall_mem_cons]
    exact ⟨rfl, rfl, rfl, rfl, rfl, rfl, rfl, rfl, rfl, rfl, rfl, rfl, rfl, rfl, rfl, rfl, rfl,
      fun _ hs => absurd hs List.not_mem_nil⟩
  rw [← change_trimString h, Text.trimString_of_blank hblank]
  exact hall setting h

theorem mem_of_find (h : find? name = some setting) :
    setting ∈ all ∧ Text.folded name = setting.name := by
  rw [find?] at h
  have hname := List.find?_some h
  exact ⟨List.mem_of_find?_eq_some h, (eq_of_beq hname).symm⟩

/-- Names of settings have no blank, do not begin with a `v`, and are no names of engine options. -/
theorem name_spec : ∀ s ∈ all, ' ' ∉ s.name.toList ∧ s.name.toList.head? ≠ some 'v' ∧
    s.name ≠ "algorithm" ∧
      ∀ o ∈ EngineOptions.Setting.all, o.names.contains s.name = false := by
  decide +kernel

end Setting

theorem setOption_eq_ok_iff : rule.setOption name value = .ok next ↔
    ∃ setting, Setting.find? name = some setting ∧ setting.change value rule = some next ∧
      next.Valid := by
  rw [setOption]
  constructor
  · intro h
    split at h
    · cases h
    · rename_i setting hfind
      split at h
      · cases h
      · rename_i changed hchange
        split at h
        · cases h
        · rename_i hfault
          cases h
          exact ⟨setting, hfind, hchange, hfault⟩
  · rintro ⟨setting, hfind, hchange, hvalid⟩
    have hfault : next.fault? = none := hvalid
    simp only [hfind, hchange, hfault]

theorem valid_of_setOption (h : rule.setOption name value = .ok next) : next.Valid := by
  obtain ⟨_, _, _, hvalid⟩ := setOption_eq_ok_iff.1 h
  exact hvalid

theorem trim_ne_nil_of_setOption (h : rule.setOption name value = .ok next) :
    trim value.toList ≠ [] := by
  obtain ⟨setting, hfind, hchange, _⟩ := setOption_eq_ok_iff.1 h
  intro hblank
  rw [Setting.change_of_blank (Setting.mem_of_find hfind).1 hblank] at hchange
  cases hchange

/-- A name and a value count without the blanks around them. -/
theorem setOption_trimString (h : rule.setOption name value = .ok next) :
    rule.setOption (trimString name) (trimString value) = .ok next := by
  obtain ⟨setting, hfind, hchange, hvalid⟩ := setOption_eq_ok_iff.1 h
  refine setOption_eq_ok_iff.2 ⟨setting, ?_, ?_, hvalid⟩
  · rw [Setting.find?, Text.folded_trimString]
    exact hfind
  · rwa [Setting.change_trimString (Setting.mem_of_find hfind).1]

end Rule

/-- An engine has no option with the name of a setting of the rule. -/
theorem EngineOptions.setOption_of_rule {rule next : Rule} {name value : String}
    (h : rule.setOption name value = .ok next) (options : EngineOptions) :
    options.setOption name value = .error (.unknownOption name) := by
  obtain ⟨setting, hfind, _⟩ := Rule.setOption_eq_ok_iff.1 h
  obtain ⟨hmem, hname⟩ := Rule.Setting.mem_of_find hfind
  obtain ⟨_, _, halgorithm, hother⟩ := Rule.Setting.name_spec setting hmem
  have hnone : Setting.find? name = none := by
    rw [Setting.find?, List.find?_eq_none, hname]
    intro o ho
    rw [hother o ho]
    exact Bool.false_ne_true
  rw [setOption, hname, if_neg halgorithm, hnone]

end Morris
