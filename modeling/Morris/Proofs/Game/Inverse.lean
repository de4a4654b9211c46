import Morris.Proofs.Game.Choice
import Morris.Proofs.Game.History
import Morris.Proofs.Symmetry.Inverse

/-!
# Images of games undone

The image of a game is made position by position and record by record, and its keys are made from
the new positions. So a game comes back under the inverse symmetry if its positions do, if its keys
are those of its positions (`Game.Remembers`), and if each of its records is `Canonical`: when it
writes a move, it is the text of that move. A game keeps only such records
(`Game.canonical_accept`), however the texts that were entered had written their moves.
`reachable_image_inverse` puts this together with the same fact about positions.
-/

set_option autoImplicit false

namespace Morris

open Morris.Text (trim)

variable {pos next : Position} {text record : String}

/-! ## Canonical records -/

/-- A record that is the text of the move that it writes, if it writes one. -/
def Canonical (record : String) : Prop :=
  ∀ m, Move.ofText? record.toList = some m → m.text = record

theorem canonical_text {m : Move} (hm : m.OnBoard) : Canonical m.text := by
  intro m' hm'
  rw [hm.writes.read] at hm'
  cases hm'
  rfl

/-- A record that does not begin like a move writes none. -/
theorem canonical_of_first {c : Char} {rest : List Char} (h : record.toList = c :: rest)
    (hblank : Text.isBlank c = false) (hc : c ≠ '(') (hsign : c ≠ '-') : Canonical record := by
  intro m hm
  rw [h, Move.ofText?_cons hblank hc hsign] at hm
  cases hm

/-- The record that a position gives of itself is canonical. -/
theorem canonical_record (h : pos.state.memory.Live) : Canonical pos.record := by
  have hmove : Canonical
      (if pos.state.lastMove.isProper then pos.state.lastMove.text else "") := by
    split
    · exact canonical_text (h.lastMove ‹_›)
    · have hempty : Move.ofText? "".toList = none := by decide
      intro m hm
      rw [hempty] at hm
      cases hm
  -- no record of an ending is read as a move: none begins with a bracket or a sign
  have hgave : ∀ c : Colour, Canonical (gaveUpRecord c) := by
    intro c
    apply @canonical_of_first _ 'P' (gaveUpRecord c).toList.tail _ (by decide) (by decide)
      (by decide)
    cases c <;> decide +kernel
  have htime : ∀ c : Colour, Canonical (wonOnTimeRecord c) := by
    intro c
    apply @canonical_of_first _ 'T' (wonOnTimeRecord c).toList.tail _ (by decide) (by decide)
      (by decide)
    cases c <;> decide +kernel
  have hdrawn : Canonical repetitionRecord :=
    @canonical_of_first _ 'T' repetitionRecord.toList.tail (by decide +kernel) (by decide)
      (by decide) (by decide)
  simp only [Position.record]
  generalize (if pos.state.lastMove.isProper then pos.state.lastMove.text else "") = ofMove at *
  split_ifs
  · exact hmove
  · split
    · exact hgave _
    · exact htime _
    · exact hdrawn
    · exact hmove

/-- The image of a canonical record is canonical, and the inverse brings the record back. -/
theorem Canonical.onRecord (h : Canonical record) (t : Symmetry) :
    Canonical (t.onRecord record) ∧ t.inverse.onRecord (t.onRecord record) = record := by
  cases hm : Move.ofText? record.toList with
  | none =>
      have hsame : t.onRecord record = record := by rw [Symmetry.onRecord, hm]
      refine ⟨hsame.symm ▸ h, ?_⟩
      rw [hsame, Symmetry.onRecord, hm]
  | some m =>
      obtain ⟨himage, hback⟩ := t.onBoard_onMove (Move.onBoard_ofText? hm)
      have htext : t.onRecord record = (t.onMove m).text := by rw [Symmetry.onRecord, hm]
      refine ⟨htext.symm ▸ canonical_text himage, ?_⟩
      rw [htext, Symmetry.onRecord, himage.writes.read]
      simp only [hback]
      exact h m hm

/-! ## What records lead to -/

namespace Position

/-- A text that writes a move is played as this move. -/
theorem apply_of_written {m : Move} (htrim : trim text.toList = text.toList)
    (hm : Move.ofText? text.toList = some m) (hnext : pos.command text = some next) :
    pos.apply m = .ok next := by
  have hbare : Bare text := by
    cases htext : text.toList with
    | nil =>
        have hempty : Move.ofText? [] = none := by decide
        rw [htext, hempty] at hm
        cases hm
    | cons c rest =>
        refine ⟨by simp [htext], htrim, ?_⟩
        -- a move does not begin like the line of an engine
        have hline : c ≠ 'i' := by
          rintro rfl
          rw [htext, Move.ofText?_cons (by decide) (by decide) (by decide)] at hm
          cases hm
        have hmark : Text.after? "info score ".toList (c :: rest) = none :=
          Text.after?_of_ne (Ne.symm hline) _ _
        rw [engineLineRecord?, htext, hmark]
        rfl
  rw [command_of_bare hbare, commandBody, hm] at hnext
  exact toOption_eq_some_iff.1 hnext

/-- A record counts a move only if it is one on live points, which is remembered then. -/
theorem onBoard_of_counted (hnext : pos.command text = some next)
    (hply : next.state.ply = pos.state.ply + 1) : next.state.lastMove.OnBoard := by
  -- whatever starts a game anew or ends it counts no move
  have hfresh {rule : Rule} (hstart : ofRule rule = .ok next) : next.state.ply = 0 := by
    obtain ⟨v, _, rfl⟩ := map_eq_ok_iff.1 hstart
    rfl
  have hended {loser : Colour} {ending : Ending} (hend : pos.endAgainst loser ending = .ok next) :
      next.state.ply = pos.state.ply := by
    obtain ⟨_, rfl⟩ := endAgainst_spec hend
    rfl
  simp only [command] at hnext
  split at hnext
  · cases hnext
    cases hply
  · cases commanded_of_commandBody hnext with
    | moved hm happly =>
        rw [(counted_apply happly).2]
        exact Move.onBoard_ofText? hm
    | gaveUp _ _ hend => exact absurd (hended hend) (by omega)
    | timeUp _ _ hend => exact absurd (hended hend) (by omega)
    | chosen _ hstart =>
        obtain ⟨rule, _, hstart⟩ := bind_eq_ok_iff.1 hstart
        exact absurd (hfresh hstart) (by omega)
    | noted _ _ _ => omega
    | drawn _ _ _ =>
        have hsame : pos.declareRepetition.state.ply = pos.state.ply := rfl
        omega

/-- A record leaves only live points to remember. -/
theorem live_command (h : pos.state.memory.Live) (hnext : pos.command text = some next) :
    next.state.memory.Live := by
  have hended {loser : Colour} {ending : Ending} (hend : pos.endAgainst loser ending = .ok next) :
      next.state.memory.Live := by
    obtain ⟨_, rfl⟩ := endAgainst_spec hend
    exact h
  simp only [command] at hnext
  split at hnext
  · cases hnext
    exact live_initial _
  · cases commanded_of_commandBody hnext with
    | moved hm happly => exact live_apply h (fun _ => Move.onBoard_ofText? hm) happly
    | gaveUp _ _ hend => exact hended hend
    | timeUp _ _ hend => exact hended hend
    | chosen _ hstart =>
        obtain ⟨rule, _, hstart⟩ := bind_eq_ok_iff.1 hstart
        obtain ⟨v, _, rfl⟩ := map_eq_ok_iff.1 hstart
        exact live_initial _
    | noted _ _ _ => exact h
    | drawn _ _ _ => exact h

end Position

/-! ## Games -/

namespace Game

variable {rule : Rule} {g after : Game}

/-- What a game records of an accepted text is canonical. -/
theorem canonical_accept (htrim : trim text.toList = text.toList)
    (hpos : g.position.command text = some pos) (hlive : pos.state.memory.Live) :
    ∃ record, Canonical record ∧ ((g.accept text pos).steps = [⟨g.position, record⟩] ∨
      (g.accept text pos).steps = g.steps ++ [⟨g.position, record⟩]) := by
  by_cases hrule : g.position.rule = pos.rule
  · by_cases hply : pos.state.ply = g.position.state.ply + 1
    · rw [accept_moved hrule.symm hply]
      exact ⟨_, canonical_text (Position.onBoard_of_counted hpos hply),
        .inr (steps_drawIfRepeated _)⟩
    · have hmoved : ¬ (pos.state ≠ g.position.state ∧
          pos.state.ply = g.position.state.ply + 1) := fun h => hply h.2
      rw [accept, if_neg (not_not.2 hrule)]
      simp only [if_neg hmoved]
      refine ⟨_, ?_, .inr (steps_drawIfRepeated _)⟩
      split
      · exact canonical_record hlive
      · intro m hm
        have happly := Position.apply_of_written htrim hm hpos
        exact absurd (Position.counted_apply happly).1 hply
  · rw [accept, if_pos hrule]
    -- a record that is the text of a move would have kept the rule
    refine ⟨text, fun m hm => ?_, .inl rfl⟩
    have happly := Position.apply_of_written htrim hm hpos
    exact absurd (congrArg Variant.rule (Position.variant_apply happly)).symm hrule

theorem live_drawIfRepeated (h : g.position.state.memory.Live) :
    g.drawIfRepeated.position.state.memory.Live := by
  rw [drawIfRepeated]
  split <;> exact h

/-- A game whose positions remember live points only and whose records are canonical. -/
structure Reversible (g : Game) : Prop where
  position : g.position.state.memory.Live
  before : ∀ s ∈ g.steps, s.before.state.memory.Live
  records : ∀ s ∈ g.steps, Canonical s.record

theorem Reversible.command (h : g.Reversible) (hnext : g.command text = some after) :
    after.Reversible := by
  simp only [Game.command] at hnext
  split at hnext
  · cases hnext
    exact ⟨Position.live_initial _, List.forall_mem_nil _, List.forall_mem_nil _⟩
  · obtain ⟨pos, hpos, rfl⟩ := Option.map_eq_some_iff.1 hnext
    have hlive := Position.live_command h.position hpos
    have htrim : trim (Text.trimString text).toList = (Text.trimString text).toList := by
      rw [Text.toList_trimString, Text.trim_trim]
    obtain ⟨record, hrecord, hsteps⟩ := canonical_accept htrim hpos hlive
    have hposition : (g.accept (Text.trimString text) pos).position.state.memory.Live := by
      rw [accept]
      split
      · exact hlive
      · exact live_drawIfRepeated hlive
    -- the steps begin with this one, or it is added to those before
    rcases hsteps with hsteps | hsteps
    · rw [← List.nil_append [_]] at hsteps
      exact ⟨hposition, by simpa [hsteps] using h.position, by simpa [hsteps] using hrecord⟩
    · refine ⟨hposition, ?_, ?_⟩
      · rw [hsteps]
        exact List.forall_mem_append.2 ⟨h.before, List.forall_mem_singleton.2 h.position⟩
      · rw [hsteps]
        exact List.forall_mem_append.2 ⟨h.records, List.forall_mem_singleton.2 hrecord⟩

theorem Reversible.rewind {n : Nat} (h : g.Reversible) (hnext : g.rewind? n = some after) :
    after.Reversible := by
  rcases rewound_of_rewind hnext with rfl | ⟨s, hthere, rfl⟩
  · exact h
  · exact ⟨h.before s (List.mem_of_getElem? hthere),
      fun s hs => h.before s (List.mem_of_mem_take hs),
      fun s hs => h.records s (List.mem_of_mem_take hs)⟩

theorem Reversible.image (h : g.Reversible) (t : Symmetry) : (g.image t).Reversible := by
  have hlive : ∀ {pos : Position}, pos.state.memory.Live → (pos.image t).state.memory.Live :=
    fun hpos => Position.memory_image _ t ▸ hpos.image t
  have hsteps : (g.image t).steps =
      g.steps.map fun s => ⟨s.before.image t, t.onRecord s.record⟩ := rfl
  refine ⟨hlive h.position, ?_, ?_⟩
  · rw [hsteps, List.forall_mem_map]
    exact fun s hs => hlive (h.before s hs)
  · rw [hsteps, List.forall_mem_map]
    exact fun s hs => ((h.records s hs).onRecord t).1

theorem Reachable.reversible (h : Reachable rule g) : g.Reversible := by
  induction h with
  | begin hbegin =>
      obtain ⟨pos, hpos, rfl⟩ := Position.map_eq_ok_iff.1 hbegin
      obtain ⟨v, _, rfl⟩ := Position.map_eq_ok_iff.1 hpos
      exact ⟨Position.live_initial _, List.forall_mem_nil _, List.forall_mem_nil _⟩
  | command _ hnext ih => exact ih.command hnext
  | undo _ hnext ih => exact ih.rewind (rewind_of_undo hnext)
  | rewind _ hnext ih => exact ih.rewind hnext
  | image t _ ih => exact ih.image t

/-- The keys of a game that remembers them are told by its positions. -/
theorem Remembers.eq_of_positions (h : g.Remembers) (h' : after.Remembers)
    (hposition : g.position = after.position) (hsteps : g.steps = after.steps) : g = after := by
  have hkeys : g.keys = after.keys := by rw [h, h', hposition, hsteps]
  cases g
  cases after
  exact congr (congr (congrArg Game.mk hposition) hsteps) hkeys

/-- The inverse of a symmetry brings a game back. -/
theorem Reversible.image_inverse (h : g.Reversible) (hsound : g.SoundAll) (hkeys : g.Remembers)
    (t : Symmetry) : (g.image t).image t.inverse = g := by
  have hsteps : ((g.image t).image t.inverse).steps =
      (g.steps.map fun s => (⟨s.before.image t, t.onRecord s.record⟩ : Step)).map
        fun s => ⟨s.before.image t.inverse, t.inverse.onRecord s.record⟩ := rfl
  apply (remembers_withRebuiltKeys _).eq_of_positions hkeys
  · exact hsound.position.image_inverse h.position t
  · show ((g.image t).image t.inverse).steps = g.steps
    rw [hsteps, List.map_map]
    conv_rhs => rw [← List.map_id g.steps]
    apply List.map_congr_left
    intro s hs
    have hbefore := (hsound.before s hs).image_inverse (h.before s hs) t
    have hrecord := ((h.records s hs).onRecord t).2
    simp only [Function.comp_apply, hbefore, hrecord, id_eq]

end Game

/-- In a game of accepted moves made of live points, the inverse of a symmetry brings back the
position that the symmetry was applied to, with all of its state; and in a game that comes about by
records, by taking them back and by symmetries, it brings back the game, with its position, the
positions before its records, the records and the keys. -/
theorem reachable_image_inverse {rule : Rule} (t : Symmetry) :
    (∀ pos, Position.PlayedBy Move.Built rule pos → (pos.image t).image t.inverse = pos) ∧
      ∀ g, Game.Reachable rule g → (g.image t).image t.inverse = g :=
  ⟨fun _ hpos => hpos.sound.image_inverse hpos.live t,
    fun _ hg => hg.reversible.image_inverse hg.soundAll hg.remembers t⟩

/-- Two quarter turns, one each way: after a mill by which White has scored, and after a game with a
slide. -/
theorem reachable_image_inverse_quarterTurn :
    (∃ pos, Position.PlayedBy Move.Built Position.scoringOnce pos ∧
        pos.state.usedLines.white ≠ .empty ∧
        (pos.image .quarterTurn).image .threeQuarterTurn = pos) ∧
      Game.Reachable { pieceCount := 4 } Game.quartet ∧ Game.quartet.records.length = 9 ∧
        (Game.quartet.image .quarterTurn).image .threeQuarterTurn = Game.quartet := by
  have hspec : ((Position.ofVariant (.ofRule Position.scoringOnce)).applyAll?
      Position.innerMill).any (fun pos => pos.state.usedLines.white != .empty) = true := by
    decide +kernel
  obtain ⟨pos, hpos, hscored⟩ := (Option.any_eq_true _ _).1 hspec
  have hbuilt : ∀ m ∈ Position.innerMill, m.Built := by
    simp only [Position.innerMill, List.forall_mem_cons, List.not_mem_nil, false_implies,
      implies_true, and_true]
    exact ⟨.place rfl, .place rfl, .place rfl, .place rfl, .place rfl⟩
  have hplayed : Position.PlayedBy Move.Built Position.scoringOnce pos :=
    (Position.PlayedBy.begin rfl).applyAll hbuilt hpos
  have hgame : (Game.ofPosition (.ofVariant (.ofRule { pieceCount := 4 }))).playAll?
      ["(1,1)", "(1,3)", "(2,2)", "(2,4)", "(3,5)", "(3,7)", "(1,6)", "(2,8)",
        "(1,1)->(1,2)"] = some Game.quartet := by
    decide +kernel
  have hreach : Game.Reachable { pieceCount := 4 } Game.quartet :=
    (Game.Reachable.begin rfl).playAll hgame
  exact ⟨⟨pos, hplayed, by simpa using hscored,
      (reachable_image_inverse .quarterTurn).1 pos hplayed⟩,
    hreach, by decide +kernel, (reachable_image_inverse .quarterTurn).2 _ hreach⟩

end Morris
