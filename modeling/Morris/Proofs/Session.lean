import Morris.Session.Arguments
import Morris.Proofs.Game.Rules
import Morris.Proofs.Setting

/-!
# Settings in a session

The line `setoption name <name> value <value>` gives the session a name and a value, and what is
written between the marks comes out again without the blanks around it
(`Session.handle_optionLine`). The engine is asked first. It has no option with the name of a
setting of the rule, so a setting is changed in the rule of the game; then the first game of the
changed rule begins, and the records are played again as far as they go (`Session.handle_of_rule`).

What the replay can lead to depends on the session. Every session that comes about has a game that
comes about from the first one of some rule (`Session.Reachable.played`), and a choice among the
records of such a game names the rule in force. So a choice that is played again brings the old rule
back, and the setting is lost; without one it stays (`Session.reachable_setOption`).
-/

set_option autoImplicit false

namespace Morris

open Morris.Text (trim trimEnd trimString after? cutAt?)

/-! ## Lines that set an option -/

namespace Text

theorem trimEnd_trimEnd (cs : List Char) : trimEnd (trimEnd cs) = trimEnd cs :=
  List.rdropWhile_idempotent isBlank cs

theorem trimEnd_ne_nil {cs : List Char} (h : trim cs ≠ []) : trimEnd cs ≠ [] := by
  intro hblank
  have hall : ∀ c ∈ cs, isBlank c = true := List.rdropWhile_eq_nil_iff.1 hblank
  rw [trim, List.dropWhile_eq_nil_iff.2 hall] at h
  exact h rfl

theorem trim_trimEnd {cs : List Char} (h : trim cs ≠ []) : trim (trimEnd cs) = trim cs := by
  -- the blanks in front stay, and after them comes the trimmed text
  have hkept : trimEnd cs = cs.takeWhile isBlank ++ trim cs := by
    conv_lhs => rw [← List.takeWhile_append_dropWhile (p := isBlank) (l := cs)]
    exact trimEnd_append h _
  rw [hkept, trim, List.dropWhile_append_of_pos (fun _ hc => List.mem_takeWhile_imp hc), ← trim,
    trim_trim]

/-- Text before a last part that is not blank stays if its first character is no blank. -/
theorem trim_append {c : Char} (hc : isBlank c = false) (cs : List Char) {value : List Char}
    (h : trim value ≠ []) : trim (c :: cs ++ value) = c :: cs ++ trimEnd value := by
  rw [trim, List.cons_append, List.dropWhile_cons_of_neg (by simp [hc]), ← List.cons_append,
    trimEnd_append (trimEnd_ne_nil h)]

/-- A mark is found where it stands if its first two characters do not occur in a row before. -/
theorem cutAt?_of_free {c d : Char} (hne : c ≠ d) {left : List Char} (h : ¬ [c, d] <:+: left)
    (mark right : List Char) :
    cutAt? (c :: d :: mark) (left ++ c :: d :: mark ++ right) = some (left, right) := by
  induction left with
  | nil => simp [cutAt?, after?]
  | cons x left ih =>
      have hleft := ih (fun hin => h (hin.trans (List.suffix_cons x left).isInfix))
      -- the mark can begin here only if its second character follows, before the mark or in it
      have hnone : after? (c :: d :: mark) (x :: (left ++ c :: d :: mark ++ right)) = none := by
        by_cases hx : c = x
        · subst hx
          cases left with
          | nil => simp [after?, Ne.symm hne]
          | cons y left =>
              have hy : d ≠ y := by
                rintro rfl
                exact h ⟨[], left, rfl⟩
              simp [after?, hy]
        · exact after?_of_ne hx _ _
      simp only [List.cons_append, cutAt?, hnone]
      rw [hleft]
      rfl

end Text

/-- The name of a setting does not run into the mark before the value. -/
theorem Rule.Setting.not_infix_of_find {name : String} {setting : Setting}
    (h : find? name = some setting) : ¬ [' ', 'v'] <:+: name.toList := by
  rintro ⟨front, rest, hname⟩
  obtain ⟨hmem, hfolded⟩ := mem_of_find h
  obtain ⟨hblank, hfirst, _⟩ := name_spec setting hmem
  have hlower : setting.name.toList = Text.lower (trim name.toList) := by
    rw [← hfolded, Text.folded, String.toList_ofList]
  obtain ⟨kept, hkept⟩ := Text.trim_cons (c := 'v') (by decide) rest
  have hend : trimEnd ('v' :: rest) = 'v' :: kept := hkept
  have hsplit : name.toList = front ++ ' ' :: 'v' :: rest := by rw [← hname]; simp
  -- the blank is trimmed with those in front of the name, or stays within it
  by_cases hfront : ∀ c ∈ front, Text.isBlank c = true
  · have htrim : trim name.toList = 'v' :: kept := by
      rw [trim, hsplit, List.dropWhile_append_of_pos hfront]
      exact hend
    rw [hlower, htrim] at hfirst
    exact hfirst rfl
  · have hopen : (front.dropWhile Text.isBlank).isEmpty = false := by
      rwa [List.isEmpty_eq_false_iff, Ne, List.dropWhile_eq_nil_iff]
    have htrim : trim name.toList = front.dropWhile Text.isBlank ++ ' ' :: 'v' :: kept := by
      rw [trim, hsplit, List.dropWhile_append, hopen, if_neg Bool.false_ne_true,
        List.append_cons, Text.trimEnd_append (by rw [hend]; exact List.cons_ne_nil _ _), hend,
        ← List.append_cons]
    rw [hlower, htrim, Text.lower, List.map_append] at hblank
    exact hblank (List.mem_append_right _ List.mem_cons_self)

namespace Session

variable {s next : Session} {name value : String}

/-- The line that sets an option to a value. -/
def optionLine (name value : String) : String := "setoption name " ++ name ++ " value " ++ value

theorem toList_optionLine (name value : String) : (optionLine name value).toList =
    "setoption name ".toList ++ name.toList ++ " value ".toList ++ value.toList :=
  calc (optionLine name value).toList
    _ = ("setoption name " ++ name ++ " value ").toList ++ value.toList := String.toList_append
    _ = ("setoption name " ++ name).toList ++ " value ".toList ++ value.toList :=
        congrArg (· ++ value.toList) String.toList_append
    _ = "setoption name ".toList ++ name.toList ++ " value ".toList ++ value.toList :=
        congrArg (· ++ " value ".toList ++ value.toList) String.toList_append

/-- The name and the value that a line gives are found again, without the blanks around them. -/
theorem optionOf?_append (hname : ¬ [' ', 'v'] <:+: name.toList) {last : List Char}
    (hfull : trim last ≠ []) (hend : trimEnd last = last) :
    optionOf? ("name ".toList ++ name.toList ++ " value ".toList ++ last) =
      some (trimString name, String.ofList (trim last)) := by
  have hwhole : trim ("name ".toList ++ name.toList ++ " value ".toList ++ last) =
      "name ".toList ++ (name.toList ++ " value ".toList ++ last) := by
    have htrim := Text.trim_append (c := 'n') (by decide)
      ("ame ".toList ++ name.toList ++ " value ".toList) hfull
    rw [hend] at htrim
    rw [← List.append_assoc, ← List.append_assoc]
    exact htrim
  have hafter : after? "name ".toList
      ("name ".toList ++ (name.toList ++ " value ".toList ++ last)) =
        some (name.toList ++ " value ".toList ++ last) := by
    rw [after?, if_pos (by simp), List.drop_left]
  have hcut : cutAt? " value ".toList (name.toList ++ " value ".toList ++ last) =
      some (name.toList, last) :=
    Text.cutAt?_of_free (by decide) hname _ _
  simp only [optionOf?, hwhole, hafter, Option.map_some, hcut, Option.getD_some]
  rfl

theorem handle_optionLine (hname : ¬ [' ', 'v'] <:+: name.toList)
    (hvalue : trim value.toList ≠ [])
    (hset : s.setOption (trimString name) (trimString value) = .ok next) :
    s.handle (optionLine name value) = ([], some next) := by
  have htrim : trim (optionLine name value).toList =
      "setoption".toList ++ ' ' :: [] ++
        ("name ".toList ++ name.toList ++ " value ".toList ++ trimEnd value.toList) := by
    have hline := Text.trim_append (c := 's') (by decide)
      ("etoption name ".toList ++ name.toList ++ " value ".toList) hvalue
    rw [toList_optionLine]
    exact hline
  have hcut : cutAt? [' '] (trim (optionLine name value).toList) = some ("setoption".toList,
      "name ".toList ++ name.toList ++ " value ".toList ++ trimEnd value.toList) := by
    rw [htrim]
    exact Text.cutAt?_append (by decide) _
  have hoption : optionOf? ("name ".toList ++ name.toList ++ " value ".toList ++
      trimEnd value.toList) = some (trimString name, trimString value) := by
    rw [optionOf?_append hname (by rwa [Text.trim_trimEnd hvalue]) (Text.trimEnd_trimEnd _),
      Text.trim_trimEnd hvalue]
    rfl
  simp only [handle, answer, hcut, Option.getD_some, String.ofList_toList, hoption, hset]
  rfl

/-! ## Sessions that come about -/

/-- Sessions that a command line begins and lines of input lead to. -/
inductive Reachable : Session → Prop
  | begin {args : List String} {fileText : String → Option String} {s : Session} :
      Session.begin args fileText = .ok s → Reachable s
  | handle {s next : Session} {line : String} {printed : List String} : Reachable s →
      s.handle line = (printed, some next) → Reachable next

/-- Records are played again up to the first one that is refused. -/
theorem replay_spec (g : Game) (texts : List String) :
    ∃ played rest, texts = played ++ rest ∧ g.playAll? played = some (replay g texts) ∧
      ∀ r ∈ rest.head?, (replay g texts).command r = none := by
  induction texts generalizing g with
  | nil => exact ⟨[], [], rfl, rfl, fun _ hr => nomatch hr⟩
  | cons text texts ih =>
      cases hnext : g.command text with
      | none =>
          refine ⟨[], text :: texts, rfl, ?_, ?_⟩
          · simp [replay, Game.playAll?, hnext]
          · rintro r hr
            obtain rfl : text = r := Option.some.inj hr
            simp only [replay, hnext]
      | some next =>
          obtain ⟨played, rest, hsplit, hplayed, hrest⟩ := ih next
          refine ⟨text :: played, rest, by rw [hsplit]; rfl, ?_, ?_⟩
          · simpa only [replay, Game.playAll?, hnext, Option.bind_some] using hplayed
          · simpa only [replay, hnext] using hrest

/-- The game of a session comes about from the first one of some rule. -/
def Played (g : Game) : Prop := ∃ rule, Game.Reachable rule g

variable {g : Game}

theorem played_ofRule {rule : Rule} (h : Game.ofRule rule = .ok g) : Played g :=
  ⟨rule, .begin h⟩

theorem Played.command {g next : Game} {text : String} (h : Played g)
    (hnext : g.command text = some next) : Played next :=
  h.imp fun _ hreach => hreach.command hnext

theorem Played.setOption (h : Played s.game) (hset : s.setOption name value = .ok next) :
    Played next.game := by
  rw [Session.setOption] at hset
  split at hset
  · cases hset
    exact h
  · obtain ⟨rule, _, hmap⟩ := Position.bind_eq_ok_iff.1 hset
    obtain ⟨start, hstart, rfl⟩ := Position.map_eq_ok_iff.1 hmap
    -- the replay is a run of records from the first game of the changed rule
    obtain ⟨_, _, _, hplayed, _⟩ := replay_spec start s.game.records
    exact ⟨rule, Game.Reachable.playAll (.begin hstart) hplayed⟩
  · cases hset

theorem Played.answer (h : Played s.game) (line : List Char) :
    Played (s.answer line).session.game := by
  have hplay (line : String) : Played (s.play line).session.game := by
    rw [play]
    split
    · exact h
    · exact h.command ‹_›
  have hgo : Played s.go.session.game := by
    rw [go]
    split
    · exact h
    · dsimp only
      split
      · exact h
      · exact h.command ‹_›
  -- one case for each line of the protocol; most leave the game alone
  simp only [Session.answer]
  split
  · exact h
  · exact h
  · exact hgo
  · split
    · exact h
    · split
      · exact h
      · exact h.setOption ‹_›
  · exact h
  · split
    · exact h
    · exact h.imp fun _ hreach => hreach.undo ‹_›
  · exact h.imp fun _ hreach => @Game.Reachable.command _ _ _ "" hreach rfl
  · exact hplay _

/-- The command line chooses a valid rule, or none. -/
theorem valid_chosenRule {a : Arguments} {fileText : String → Option String} {rule : Rule}
    (h : a.chosenRule fileText = .ok rule) : rule.Valid := by
  rw [Arguments.chosenRule] at h
  split at h
  · rw [Rule.preset] at h
    split at h
    · cases h
      exact Rule.valid_of_mem_presets _ (List.mem_of_getElem? ‹_›)
    · cases h
  · split at h
    · cases h
    · split at h
      · cases h
      · split_ifs at h with hvalid
        cases h
        exact hvalid

theorem played_begin {args : List String} {fileText : String → Option String}
    (h : Session.begin args fileText = .ok s) : Played s.game := by
  rw [Session.begin] at h
  split at h
  · cases h
  · cases h
  · split at h
    · cases h
    · cases h
      exact played_ofRule (Game.ofRule_of_valid (valid_chosenRule ‹_›))

theorem Reachable.played (h : Reachable s) : Played s.game := by
  induction h with
  | begin hbegin => exact played_begin hbegin
  | handle _ hnext ih =>
      obtain ⟨_, hnext⟩ := Prod.mk.inj hnext
      split_ifs at hnext
      rw [← Option.some.inj hnext]
      exact ih.answer _

/-! ## Settings of the rule -/

/-- The first game of a rule. -/
def firstGame (rule : Rule) : Game := .ofPosition (.ofVariant (.ofRule rule))

theorem setOption_of_rule {rule : Rule}
    (hset : s.game.position.rule.setOption name value = .ok rule) :
    s.setOption name value =
      .ok { game := replay (firstGame rule) s.game.records, engine := s.engine.clear } := by
  have hstart := Game.ofRule_of_valid (Rule.valid_of_setOption hset)
  rw [setOption, Engine.setOption, EngineOptions.setOption_of_rule hset]
  simp only [Except.map, hset, Except.bind, hstart]
  rfl

/-- The line of a setting starts the first game of the changed rule, in which the records are played
again. -/
theorem handle_of_rule {rule : Rule}
    (hset : s.game.position.rule.setOption name value = .ok rule) :
    s.handle (optionLine name value) =
      ([], some { game := replay (firstGame rule) s.game.records, engine := s.engine.clear }) := by
  obtain ⟨setting, hfind, _⟩ := Rule.setOption_eq_ok_iff.1 hset
  exact handle_optionLine (Rule.Setting.not_infix_of_find hfind)
    (Rule.trim_ne_nil_of_setOption hset) (setOption_of_rule (Rule.setOption_trimString hset))

/-- What the line of a setting does, in whatever session. It is never refused if the setting takes
the value: the first game of the changed rule begins, the records are played again up to the first
one that it refuses, and the engine forgets. The game then goes by the changed rule, unless one of
the records played chooses a rule; such a record chooses the old rule again, and the setting is
lost. -/
theorem reachable_setOption {rule : Rule} (h : Reachable s)
    (hset : s.game.position.rule.setOption name value = .ok rule) :
    ∃ start next played rest, Game.ofRule rule = .ok start ∧
      s.handle (optionLine name value) = ([], some next) ∧ next.engine = s.engine.clear ∧
      s.game.records = played ++ rest ∧ start.playAll? played = some next.game ∧
      (∀ r ∈ rest.head?, next.game.command r = none) ∧
      next.game.position.rule =
        if ∀ r ∈ played, chosenRule? r = none then rule else s.game.position.rule := by
  have hstart : Game.ofRule rule = .ok (firstGame rule) :=
    Game.ofRule_of_valid (Rule.valid_of_setOption hset)
  obtain ⟨played, rest, hsplit, hplayed, hrest⟩ := replay_spec (firstGame rule) s.game.records
  obtain ⟨_, hreach⟩ := h.played
  have hrule := Game.rule_replayed hreach hstart ⟨rest, hsplit.symm⟩ hplayed
  exact ⟨_, _, played, rest, hstart, handle_of_rule hset, rfl, hsplit, hplayed, hrest, hrule⟩

/-- The session that begins without options. -/
def plain : Session := .ofRule {} (Arguments.engineOptions {})

/-- The same session after one record. -/
def entered (record : String) : Session :=
  { plain with game := (plain.game.command record).getD default }

theorem reachable_plain : Reachable plain :=
  @Reachable.begin [] (fun _ => none) _ rfl

theorem reachable_entered (record : String)
    (h : plain.handle record = ([], some (entered record))) : Reachable (entered record) :=
  .handle reachable_plain h

/-- After a placement in Nine Men's Morris, the number of men a side becomes five. -/
theorem reachable_setOption_placed : Reachable (entered "(1,1)") ∧
    (entered "(1,1)").game.position.rule.setOption " PiecesCount" "5" = .ok { pieceCount := 5 } ∧
      ∃ next, (entered "(1,1)").handle (optionLine " PiecesCount" "5") = ([], some next) ∧
        next.game.position.rule = { pieceCount := 5 } := by
  have hreach : Reachable (entered "(1,1)") := reachable_entered "(1,1)" rfl
  have hset : (entered "(1,1)").game.position.rule.setOption " PiecesCount" "5" =
      .ok { pieceCount := 5 } := rfl
  have hplain : ∀ r ∈ (entered "(1,1)").game.records, chosenRule? r = none := by decide +kernel
  obtain ⟨_, next, played, rest, _, hnext, _, hsplit, _, _, hrule⟩ :=
    reachable_setOption hreach hset
  rw [hsplit, List.forall_mem_append] at hplain
  rw [if_pos hplain.1] at hrule
  exact ⟨hreach, hset, next, hnext, hrule⟩

/-- Not every setting takes effect: once Twelve Men's Morris has been chosen by a record, that
record brings its rule back, and the number of men stays twelve. -/
theorem not_forall_setOption :
    ¬ ∀ (s : Session) (name value : String) (rule : Rule), Reachable s →
      s.game.position.rule.setOption name value = .ok rule →
      ∃ next, s.handle (optionLine name value) = ([], some next) ∧
        next.game.position.rule = rule := by
  intro hall
  have hset : (entered "r2 s0 t0").game.position.rule.setOption "PiecesCount" "5" =
      .ok { name := "Twelve Men's Morris", pieceCount := 5, hasDiagonals := true } := rfl
  obtain ⟨next, hnext, hrule⟩ := hall _ _ _ _ (reachable_entered "r2 s0 t0" rfl) hset
  rw [handle_of_rule hset] at hnext
  cases hnext
  have hkept : (replay
      (firstGame { name := "Twelve Men's Morris", pieceCount := 5, hasDiagonals := true })
      (entered "r2 s0 t0").game.records).position.rule.pieceCount = 12 := by decide +kernel
  exact absurd (hkept.symm.trans (congrArg Rule.pieceCount hrule)) (by decide)

end Session

end Morris
