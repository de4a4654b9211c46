import Morris.Proofs.Game.History
import Morris.Proofs.Ply
import Morris.Proofs.Records

/-!
# Replaying the records of a game

The records that a game keeps are not the texts that were entered: a move is kept in its own form,
an event by the record of the position that it led to, and a record without effect as it came.
Played into a new game under the same rule, the kept records are all accepted, and they lead to the
very same game, with one exception: the claim of a draw that is granted is kept as the note of a
draw by repetition, and that note only says what has happened. Played again it ends no game
(`Game.records_replay`).

Two games are `Astray` when the second is what a replay makes of the first after a granted claim.
Either the replay has missed the draw, or a later claim, which had no effect in the first game, has
been granted in the replay and the records differ for good.
-/

set_option autoImplicit false

namespace Morris.Game

variable {rule : Rule} {start g next again last : Game} {text : String} {texts : List String}

/-! ## Claims of a draw -/

/-- Whether a record claims a draw that the game does not have yet. -/
def grants (g : Game) (text : String) : Bool :=
  claimsDraw text && decide (g.position.declareRepetition ≠ g.position)

/-- Whether a draw is granted while records are played. -/
def grantsAny (g : Game) : List String → Bool
  | [] => false
  | text :: texts => g.grants text || (g.command text).any fun next => next.grantsAny texts

theorem not_startsOver (hfull : Text.trim text.toList ≠ [])
    (hnumber : ruleNumber? (recordOf text) = none) : ¬ StartsOver text := by
  rintro (hblank | ⟨index, pos, hchosen, _⟩)
  · exact hfull hblank
  · rw [hnumber] at hchosen
    cases hchosen

/-! ## Games that have taken notice of repetitions -/

/-- The position is sound, and a third occurrence of its key has ended the game. -/
structure Checked (g : Game) : Prop where
  sound : g.position.Sound
  drawn : g.drawIfRepeated = g

theorem drawIfRepeated_of_over (h : g.position.isOver = true) : g.drawIfRepeated = g := by
  simp [drawIfRepeated, h]

theorem drawIfRepeated_twice (g : Game) : g.drawIfRepeated.drawIfRepeated = g.drawIfRepeated := by
  by_cases h : (g.position.rule.threefoldRepetition && !g.position.isOver && g.hasCycle) = true
  · have hdrawn : g.drawIfRepeated = { g with position := g.position.declareRepetition } :=
      if_pos h
    rw [hdrawn]
    exact drawIfRepeated_of_over rfl
  · have hkept : g.drawIfRepeated = g := if_neg h
    rw [hkept, hkept]

theorem checked_drawIfRepeated (h : g.position.Sound) : g.drawIfRepeated.Checked := by
  refine ⟨?_, drawIfRepeated_twice g⟩
  rw [drawIfRepeated]
  split
  · exact h.finish .draw .drawnByRepetition
  · exact h

theorem checked_ofRule (h : ofRule rule = .ok g) : g.Checked := by
  obtain ⟨pos, hpos, rfl⟩ := Position.map_eq_ok_iff.1 h
  refine ⟨Position.sound_ofRule hpos, ?_⟩
  simp [drawIfRepeated, hasCycle, ofPosition]

/-! ## What is kept of a record -/

section Accept

variable {pos : Position}

theorem accept_moved (hrule : pos.rule = g.position.rule)
    (hply : pos.state.ply = g.position.state.ply + 1) (text : String) :
    g.accept text pos = drawIfRepeated
      { position := pos
        steps := g.steps ++ [⟨g.position, pos.state.lastMove.text⟩]
        keys := noteMove pos.state.lastMove.kind pos.state.key g.keys } := by
  have hstate : pos.state ≠ g.position.state := by
    intro hsame
    rw [hsame] at hply
    omega
  simp [accept, hrule, hstate, hply]

theorem accept_changed (hrule : pos.rule = g.position.rule)
    (hply : pos.state.ply = g.position.state.ply) (hstate : pos.state ≠ g.position.state)
    (text : String) :
    g.accept text pos =
      drawIfRepeated
        { g with position := pos, steps := g.steps ++ [⟨g.position, pos.record⟩] } := by
  simp [accept, hrule, hstate, hply]

/-- The steps have no say in whether a game is drawn. -/
theorem drawIfRepeated_append (h : g.drawIfRepeated = g) (steps : List Step) :
    drawIfRepeated { g with steps := steps } = { g with steps := steps } := by
  by_cases hcycle : (g.position.rule.threefoldRepetition && !g.position.isOver &&
      g.hasCycle) = true
  · have hdrawn : g.position.declareRepetition = g.position := by
      rw [drawIfRepeated, if_pos hcycle] at h
      exact congrArg Game.position h
    exact (if_pos hcycle).trans (congrArg (fun pos => { g with position := pos, steps }) hdrawn)
  · exact if_neg hcycle

/-- A record without effect is kept as it came. -/
theorem accept_unchanged (h : g.drawIfRepeated = g) (text : String) :
    g.accept text g.position = { g with steps := g.steps ++ [⟨g.position, text⟩] } := by
  rw [← drawIfRepeated_append h]
  simp [accept]

/-- A granted claim is kept as the note of a draw by repetition. -/
theorem accept_granted (hne : g.position.declareRepetition ≠ g.position) (text : String) :
    g.accept text g.position.declareRepetition =
      { g with
        position := g.position.declareRepetition
        steps := g.steps ++ [⟨g.position, repetitionRecord⟩] } := by
  have hstate : g.position.declareRepetition.state ≠ g.position.state := by
    intro hsame
    exact hne (congrArg (Position.mk g.position.variant) hsame)
  rw [@accept_changed g g.position.declareRepetition rfl rfl hstate text]
  exact drawIfRepeated_of_over rfl

end Accept

/-- A record that is not blank is played without the blanks around it. -/
theorem command_of_full (h : Text.trim text.toList ≠ []) :
    g.command text =
      (g.position.commandBody (recordOf text)).map (g.accept (Text.trimString text)) := by
  have hfull : (Text.trimString text).isEmpty = false := by
    rw [Text.trimString]
    simpa using h
  have hrecord : g.position.command (Text.trimString text) = g.position.command text := by
    simp only [Position.command, Text.toList_trimString, Text.trim_trim]
  simp only [command, hfull, Bool.false_eq_true, if_false, hrecord, Position.command_of_full h]

theorem command_of_bare (h : Bare text) :
    g.command text = (g.position.commandBody text.toList).map (g.accept text) := by
  have htrim : Text.trimString text = text := by
    rw [Text.trimString, h.trimmed, String.ofList_toList]
  rw [command_of_full (by rw [h.trimmed]; exact h.full), h.recordOf_eq, htrim]

theorem recordOf_trimString (text : String) : recordOf (Text.trimString text) = recordOf text := by
  simp only [recordOf, Text.toList_trimString, Text.trim_trim]

theorem command_trimString (g : Game) (text : String) :
    g.command (Text.trimString text) = g.command text := by
  simp only [command, Text.trimString_trimString]

/-- What a game takes is what its position takes. -/
theorem exists_of_command (hgoes : ¬ StartsOver text) (hnext : g.command text = some next) :
    ∃ pos, g.position.command text = some pos ∧ next = g.accept (Text.trimString text) pos := by
  have hfull := trim_ne_nil_of_goes hgoes
  rw [command_of_full hfull, ← Position.command_of_full hfull] at hnext
  obtain ⟨pos, hpos, rfl⟩ := Option.map_eq_some_iff.1 hnext
  exact ⟨pos, hpos, rfl⟩

theorem Checked.command (h : g.Checked) (hgoes : ¬ StartsOver text)
    (hnext : g.command text = some next) : next.Checked := by
  obtain ⟨pos, hpos, rfl⟩ := exists_of_command hgoes hnext
  have hsound : pos.Sound := h.sound.command hpos
  rw [accept]
  split
  · exact ⟨hsound, by simp [drawIfRepeated, hasCycle]⟩
  · exact checked_drawIfRepeated hsound

/-- A record that the game keeps whatever text it came from leads to the same game again. -/
theorem command_kept {pos : Position} {record : String} {keys : List Key} (hbare : Bare record)
    (hbody : g.position.commandBody record.toList = some pos)
    (haccept : ∀ entered, g.accept entered pos = drawIfRepeated
      { position := pos, steps := g.steps ++ [⟨g.position, record⟩], keys := keys })
    (text : String) :
    (g.accept text pos).records = g.records ++ [record] ∧
      g.command record = some (g.accept text pos) := by
  constructor
  · rw [haccept, records, steps_drawIfRepeated]
    simp [records]
  · rw [command_of_bare hbare, hbody, Option.map_some, haccept, haccept]

/-- The case of an event that ends the game, which is kept as the record of the finished position.
-/
theorem command_ended {pos : Position} {winner : Colour} {ending : Ending}
    (hgoing : g.position.isOver = false) (hend : pos = g.position.finish winner ending)
    (hbare : Bare pos.record) (hbody : g.position.commandBody pos.record.toList = some pos)
    (text : String) :
    (g.accept text pos).records = g.records ++ [pos.record] ∧
      g.command pos.record = some (g.accept text pos) := by
  have hrule : pos.rule = g.position.rule := by
    rw [hend]
    rfl
  have hply : pos.state.ply = g.position.state.ply := by
    rw [hend]
    rfl
  have hchanged := Position.finish_ne hgoing hend
  exact command_kept hbare hbody (accept_changed hrule hply hchanged) text

/-- Without a grant, what is kept of a record leads to the same game as the record. -/
theorem Checked.command_record (h : g.Checked) (hgoes : ¬ StartsOver text)
    (hnext : g.command text = some next) (hgrants : g.grants text = false) :
    ∃ record, next.records = g.records ++ [record] ∧ g.command record = some next := by
  obtain ⟨pos, hpos, rfl⟩ := exists_of_command hgoes hnext
  -- a record without effect is kept as it was entered, without the blanks
  have hidle : pos = g.position → ∃ record,
      (g.accept (Text.trimString text) pos).records = g.records ++ [record] ∧
        g.command record = some (g.accept (Text.trimString text) pos) := by
    rintro rfl
    refine ⟨Text.trimString text, ?_, ?_⟩
    · rw [accept_unchanged h.drawn]
      simp [records]
    · rw [command_trimString, hnext]
  cases Position.follows_of_command hgoes hpos with
  | @moved m _ hm happly =>
      obtain ⟨hply, rfl⟩ := Position.counted_apply happly
      have hrule := congrArg Variant.rule (Position.variant_apply happly)
      have hbody : g.position.commandBody pos.state.lastMove.text.toList = some pos := by
        rw [Position.commandBody_text hm, happly]
        rfl
      exact ⟨_, command_kept hm.writes.bare hbody (accept_moved hrule hply) _⟩
  | @gaveUp loser _ hresign =>
      obtain ⟨hgoing, hend⟩ := Position.endAgainst_spec hresign
      have hrecord : pos.record = gaveUpRecord loser.colour := by
        rw [hend]
        cases loser <;> rfl
      have hbody := @Position.commandBody_gaveUpRecord g.position loser
      rw [hresign, ← hrecord] at hbody
      exact ⟨_, command_ended hgoing hend (hrecord ▸ (eventRecords_spec loser).1.1) hbody _⟩
  | @timeUp winner _ htime =>
      obtain ⟨hgoing, hend⟩ := Position.endAgainst_spec htime
      have hrecord : pos.record = wonOnTimeRecord winner.colour := by
        rw [hend]
        cases winner <;> rfl
      have hbody := @Position.commandBody_wonOnTimeRecord g.position winner
      rw [htime, ← hrecord] at hbody
      exact ⟨_, command_ended hgoing hend (hrecord ▸ (eventRecords_spec winner).2.1) hbody _⟩
  | noted _ _ => exact hidle rfl
  | drawn hclaim _ =>
      -- the claim is not granted, so the game has been drawn before
      simp only [grants, claimsDraw, hclaim, beq_self_eq_true, Bool.true_and,
        decide_eq_false_iff_not, ne_eq, Decidable.not_not] at hgrants
      exact hidle hgrants

/-! ## Replays that go astray -/

/-- How a game and its replay stand after a draw was granted: the replay has missed the draw, or the
replay has been granted another claim and the records differ. -/
inductive Astray (again g : Game) : Prop
  | missed : again.drawIfRepeated = again → again.position.rule.threefoldRepetition = true →
      g.position = again.position.declareRepetition → again.position ≠ g.position →
      again.records = g.records → Astray again g
  | late : again.position.rule.threefoldRepetition = true → again.position = g.position →
      g.position.declareRepetition = g.position → again.records ≠ g.records → Astray again g

/-- What the replay plays after the grant: records without effect in the drawn game. -/
theorem command_of_drawn (hdrawn : g.position.declareRepetition = g.position)
    (hgoes : ¬ StartsOver text) (hnext : g.command text = some next) :
    next = { g with steps := g.steps ++ [⟨g.position, Text.trimString text⟩] } ∧
      (recordOf text = repetitionRecord.toList ∨ recordOf text = drawRecord.toList) := by
  obtain ⟨pos, hpos, rfl⟩ := exists_of_command hgoes hnext
  obtain ⟨rfl, _, hrecord⟩ := (Position.follows_of_command hgoes hpos).of_drawn hdrawn
  have hover : g.position.isOver = true := by
    rw [← hdrawn]
    rfl
  exact ⟨accept_unchanged (drawIfRepeated_of_over hover) _, hrecord⟩

/-- A claim of a draw is not the note of one. -/
theorem ne_repetitionRecord (hclaim : recordOf text = drawRecord.toList) :
    Text.trimString text ≠ repetitionRecord := by
  intro hsame
  obtain ⟨hbare, _⟩ := repetitionRecord_only
  obtain ⟨_, _, _, _, _, _, _, hother⟩ := drawRecord_only
  rw [← recordOf_trimString, hsame, hbare.recordOf_eq] at hclaim
  exact hother hclaim.symm

/-- A record in the drawn game keeps the replay astray. -/
theorem Astray.command (h : Astray again g) (hgoes : ¬ StartsOver text)
    (hnext : g.command text = some next) :
    next.records = g.records ++ [Text.trimString text] ∧
      ∃ after, again.command (Text.trimString text) = some after ∧ Astray after next := by
  have hfull := trim_ne_nil_of_goes hgoes
  have hdrawn : g.position.declareRepetition = g.position := by
    cases h with
    | missed _ _ hdraw _ _ => rw [hdraw, Position.declareRepetition_twice]
    | late _ _ hdrawn _ => exact hdrawn
  obtain ⟨rfl, hrecord⟩ := command_of_drawn hdrawn hgoes hnext
  refine ⟨by simp [records], ?_⟩
  rw [command_trimString, command_of_full hfull]
  cases h with
  | missed hchecked hthree hdraw hne hrecords =>
      rcases hrecord with hnote | hclaim
      · -- the note passes the replay by once more
        rw [hnote, Position.commandBody_repetitionRecord hthree, Option.map_some,
          accept_unchanged hchecked]
        refine ⟨_, rfl, .missed (drawIfRepeated_append hchecked _) hthree hdraw hne ?_⟩
        simpa [records] using hrecords
      · -- the replay is granted this claim and keeps the note of it
        rw [hclaim, Position.commandBody_drawRecord hthree, Option.map_some,
          accept_granted (hdraw ▸ Ne.symm hne)]
        refine ⟨_, rfl, .late hthree hdraw.symm hdrawn ?_⟩
        intro hsame
        simp only [records, List.map_append, List.map_cons, List.map_nil] at hsame
        obtain ⟨_, hlast⟩ := List.append_inj' hsame (by simp only [List.length_singleton])
        exact ne_repetitionRecord hclaim (List.singleton_inj.1 hlast).symm
  | late hthree hsame _ hrecords =>
      have hbody : again.position.commandBody (recordOf text) = some again.position := by
        rcases hrecord with hnote | hclaim
        · rw [hnote, Position.commandBody_repetitionRecord hthree]
        · rw [hclaim, Position.commandBody_drawRecord hthree, hsame, hdrawn]
      have hover : again.position.isOver = true := by
        rw [hsame, ← hdrawn]
        rfl
      rw [hbody, Option.map_some, accept_unchanged (drawIfRepeated_of_over hover)]
      refine ⟨_, rfl, .late hthree hsame hdrawn ?_⟩
      intro hequal
      apply hrecords
      simp only [records, List.map_append, List.map_cons, List.map_nil] at hequal
      exact List.append_inj_left' hequal (by simp only [List.length_singleton])

/-- A granted claim sends the replay astray. -/
theorem Checked.astray_of_grants (h : g.Checked) (hgoes : ¬ StartsOver text)
    (hnext : g.command text = some next) (hgrants : g.grants text = true) :
    next.records = g.records ++ [repetitionRecord] ∧
      ∃ again, g.command repetitionRecord = some again ∧ Astray again next := by
  have hfull := trim_ne_nil_of_goes hgoes
  simp only [grants, claimsDraw, Bool.and_eq_true, beq_iff_eq, decide_eq_true_eq] at hgrants
  obtain ⟨hclaim, hne⟩ := hgrants
  -- without the rule of threefold repetition the claim is refused
  have hthree : g.position.rule.threefoldRepetition = true := by
    by_contra hnot
    obtain ⟨_, _, _, hmove, hgave, htime, hnumber, _⟩ := drawRecord_only
    rw [command_of_full hfull, hclaim] at hnext
    simp [Position.commandBody, hmove, hgave, htime, hnumber, hnot] at hnext
  rw [command_of_full hfull, hclaim, Position.commandBody_drawRecord hthree, Option.map_some,
    accept_granted hne, Option.some_inj] at hnext
  subst hnext
  refine ⟨by simp [records], ?_⟩
  -- the replay enters the note of a repetition instead, which changes nothing
  rw [command_of_bare repetitionRecord_only.1, Position.commandBody_repetitionRecord hthree,
    Option.map_some, accept_unchanged h.drawn]
  refine ⟨_, rfl, .missed (drawIfRepeated_append h.drawn _) hthree rfl (Ne.symm hne) ?_⟩
  simp [records]

theorem Astray.ne (h : Astray again g) :
    again.position ≠ g.position ∨ again.records ≠ g.records := by
  cases h with
  | missed _ _ _ hne _ => exact Or.inl hne
  | late _ _ _ hne => exact Or.inr hne

/-! ## Whole games -/

theorem Astray.playAll (h : Astray again g) (hgoes : ∀ text ∈ texts, ¬ StartsOver text)
    (hlast : g.playAll? texts = some last) :
    ∃ kept final, last.records = g.records ++ kept ∧ again.playAll? kept = some final ∧
      Astray final last := by
  induction texts generalizing g again with
  | nil =>
      cases hlast
      exact ⟨[], again, by simp, rfl, h⟩
  | cons text texts ih =>
      obtain ⟨next, hnext, hrest⟩ := Option.bind_eq_some_iff.1 hlast
      obtain ⟨hrecords, after, hafter, hastray⟩ := h.command (hgoes text List.mem_cons_self) hnext
      obtain ⟨kept, final, hkept, hfinal, hend⟩ :=
        ih hastray (fun t ht => hgoes t (List.mem_cons_of_mem text ht)) hrest
      refine ⟨Text.trimString text :: kept, final, ?_, ?_, hend⟩
      · rw [hkept, hrecords, List.append_assoc, List.singleton_append]
      · rw [playAll?, hafter, Option.bind_some, hfinal]

/-- The records added by a run lead to the same game, unless a draw was granted on the way. -/
theorem Checked.playAll (h : g.Checked) (hgoes : ∀ text ∈ texts, ¬ StartsOver text)
    (hlast : g.playAll? texts = some last) :
    ∃ kept again, last.records = g.records ++ kept ∧ g.playAll? kept = some again ∧
      (if g.grantsAny texts then Astray again last else again = last) := by
  induction texts generalizing g with
  | nil =>
      cases hlast
      exact ⟨[], last, by simp, rfl, rfl⟩
  | cons text texts ih =>
      obtain ⟨next, hnext, hrest⟩ := Option.bind_eq_some_iff.1 hlast
      have hhere := hgoes text List.mem_cons_self
      have hlater := fun t ht => hgoes t (List.mem_cons_of_mem text ht)
      have hany : g.grantsAny (text :: texts) = (g.grants text || next.grantsAny texts) := by
        rw [grantsAny, hnext, Option.any_some]
      -- a granted claim sends the replay astray for good; any other record is replayed as it was
      cases hgrants : g.grants text with
      | true =>
          obtain ⟨hrecords, again, hagain, hastray⟩ := h.astray_of_grants hhere hnext hgrants
          obtain ⟨kept, final, hkept, hfinal, hend⟩ := hastray.playAll hlater hrest
          refine ⟨repetitionRecord :: kept, final, ?_, ?_, ?_⟩
          · rw [hkept, hrecords, List.append_assoc, List.singleton_append]
          · rw [playAll?, hagain, Option.bind_some, hfinal]
          · rw [hany, hgrants, Bool.true_or, if_pos rfl]
            exact hend
      | false =>
          obtain ⟨record, hrecords, hrecord⟩ := h.command_record hhere hnext hgrants
          obtain ⟨kept, again, hkept, hagain, hend⟩ := ih (h.command hhere hnext) hlater hrest
          refine ⟨record :: kept, again, ?_, ?_, ?_⟩
          · rw [hkept, hrecords, List.append_assoc, List.singleton_append]
          · rw [playAll?, hrecord, Option.bind_some, hagain]
          · rw [hany, hgrants, Bool.false_or]
            exact hend

/-- The records of a game that never starts over are all accepted by a new game under the same rule,
and lead to the very same game exactly if no claim of a draw was granted: with the same position,
records, remembered positions and keys. After a granted claim the position or the records differ. -/
theorem records_replay (hstart : ofRule rule = .ok start)
    (hgoes : ∀ text ∈ texts, ¬ StartsOver text) (hlast : start.playAll? texts = some last) :
    ∃ again, start.playAll? last.records = some again ∧
      (start.grantsAny texts = false → again = last) ∧
      (start.grantsAny texts = true →
        again.position ≠ last.position ∨ again.records ≠ last.records) := by
  obtain ⟨kept, again, hkept, hagain, hend⟩ := (checked_ofRule hstart).playAll hgoes hlast
  have hnew : start.records = [] := by
    obtain ⟨pos, _, rfl⟩ := Position.map_eq_ok_iff.1 hstart
    rfl
  rw [hnew, List.nil_append] at hkept
  subst hkept
  refine ⟨again, hagain, ?_, ?_⟩
  · intro hnone
    rwa [hnone] at hend
  · intro hsome
    rw [hsome, if_pos rfl] at hend
    exact hend.ne

/-- Nine Men's Morris before the first move. -/
def untouched : Game := ofPosition (.ofVariant (.ofRule {}))

/-- A game that takes the line of an engine and a text between blanks, and ends by White giving up,
is replayed to the same end. -/
theorem records_replay_given_up :
    ∃ last, ofRule {} = .ok untouched ∧
      untouched.playAll? ["info score 3 bestmove (1,1)", " (1,3) ", "Player1 give up!"] =
        some last ∧
      last.position.isOver = true ∧ untouched.playAll? last.records = some last := by
  have hgoes : ∀ text ∈ ["info score 3 bestmove (1,1)", " (1,3) ", "Player1 give up!"],
      ¬ StartsOver text := by
    simp only [List.forall_mem_cons]
    refine ⟨?_, ?_, ?_, nofun⟩ <;> exact not_startsOver (by decide +kernel) (by decide +kernel)
  have hplayed : (untouched.playAll?
      ["info score 3 bestmove (1,1)", " (1,3) ", "Player1 give up!"]).any
        (·.position.isOver) = true := by
    decide +kernel
  have hnone : untouched.grantsAny
      ["info score 3 bestmove (1,1)", " (1,3) ", "Player1 give up!"] = false := by
    decide +kernel
  obtain ⟨last, hlast, hover⟩ := (Option.any_eq_true _ _).1 hplayed
  obtain ⟨again, hagain, hsame, _⟩ := @records_replay {} _ _ _ rfl hgoes hlast
  obtain rfl := hsame hnone
  exact ⟨again, rfl, hlast, hover, hagain⟩

/-- Not every game is replayed to its end: a draw that is claimed after a placement ends the game,
and the record that is kept of the claim does not. -/
theorem not_forall_records_replay :
    ¬ ∀ (rule : Rule) (start last : Game) (texts : List String), ofRule rule = .ok start →
      (∀ text ∈ texts, ¬ StartsOver text) → start.playAll? texts = some last →
      ∃ again, start.playAll? last.records = some again ∧ again.position = last.position ∧
        again.records = last.records ∧ again.keys = last.keys := by
  intro hall
  have hgoes : ∀ text ∈ ["(1,1)", "draw"], ¬ StartsOver text := by
    simp only [List.forall_mem_cons]
    exact ⟨not_startsOver (by decide +kernel) (by decide +kernel), not_startsOver_drawRecord, nofun⟩
  have hplayed : (untouched.playAll? ["(1,1)", "draw"]).any (fun last =>
      last.position.isOver && (untouched.playAll? last.records).all
        fun again => !again.position.isOver) = true := by
    decide +kernel
  obtain ⟨last, hlast, hends⟩ := (Option.any_eq_true _ _).1 hplayed
  obtain ⟨again, hagain, hposition, _⟩ := hall {} untouched last _ rfl hgoes hlast
  simp [hagain, hposition] at hends

end Morris.Game
