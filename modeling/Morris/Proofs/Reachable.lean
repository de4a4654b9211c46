import Morris.Position.Command
import Morris.Proofs.Image
import Morris.Proofs.Variant

/-!
# Reachable positions

A game may be played by any sequence of operations: the acts of a player, whole moves, records, new
rules, images, and the return to a state that was saved under the same rule. An operation that is
refused leaves the position as it is. `Position.Reachable` gathers the positions that come about in
this way from the first position of a rule, and `Position.Reachable.sound` says that they are all
sound.

The last section draws the conclusions that are of interest on their own: the forms of the board and
the counts tell the same, and the key kept up to date is the one computed from scratch.
-/

set_option autoImplicit false

namespace Morris

/-- An operation on a position. -/
inductive Operation where
  | start
  | reset
  | put (p : Point)
  | select (p : Point)
  | slide (a b : Point)
  | remove (p : Point)
  | apply (m : Move)
  | makeMove (saved : List State) (m : Move)
  | resign (loser : Colour)
  | timeOver (loser : Colour)
  | declareRepetition
  | settle
  | command (text : String)
  | setRule (rule : Rule)
  | image (t : Symmetry)
  | rotate (degrees : Int)

namespace Position

/-- The position after an operation, which is the same if the operation is refused. -/
def perform (pos : Position) : Operation → Position
  | .start => pos.start
  | .reset => pos.reset
  | .put p => ((pos.put p).map (·.2)).toOption.getD pos
  | .select p => (pos.select p).toOption.getD pos
  | .slide a b => ((pos.slide a b).map (·.2)).toOption.getD pos
  | .remove p => (pos.remove p).toOption.getD pos
  | .apply m => (pos.apply m).toOption.getD pos
  | .makeMove saved m => ((pos.makeMove saved m).map (·.1)).toOption.getD pos
  | .resign loser => (pos.resign loser).toOption.getD pos
  | .timeOver loser => (pos.timeOver loser).toOption.getD pos
  | .declareRepetition => pos.declareRepetition
  | .settle => pos.settle
  | .command text => (pos.command text).getD pos
  | .setRule rule => (ofRule rule).toOption.getD pos
  | .image t => pos.image t
  | .rotate degrees => (pos.rotate? degrees).getD pos

/-- The position after a sequence of operations. -/
def performAll (pos : Position) (ops : List Operation) : Position := ops.foldl perform pos

/-- Positions that come about from the first position of a rule. -/
inductive Reachable (rule : Rule) : Position → Prop
  | begin {pos : Position} : ofRule rule = .ok pos → Reachable rule pos
  | perform {pos : Position} (op : Operation) : Reachable rule pos →
      Reachable rule (pos.perform op)
  /-- The order of the moves is shuffled. -/
  | adopt {pos : Position} {v : Variant} : Reachable rule pos → v.Made → v.rule = pos.rule →
      Reachable rule { pos with variant := v }
  /-- A state that was saved under the same rule comes back. -/
  | restore {pos earlier next : Position} {saved rest : List State} : Reachable rule pos →
      Reachable rule earlier → earlier.rule = pos.rule →
      pos.unmakeMove? (earlier.state :: saved) = some (next, rest) → Reachable rule next

/-- Operations lead from reachable positions to reachable ones. -/
theorem Reachable.performAll {rule : Rule} {pos : Position} (h : Reachable rule pos)
    (ops : List Operation) : Reachable rule (pos.performAll ops) := by
  induction ops generalizing pos with
  | nil => exact h
  | cons op ops ih => exact ih (h.perform op)

/-! ## What operations lead to -/

/-- A game is ended against a side only while it goes on. -/
theorem endAgainst_spec {pos next : Position} {loser : Colour} {ending : Ending}
    (h : pos.endAgainst loser ending = .ok next) :
    pos.isOver = false ∧ next = pos.finish loser.opponent ending := by
  simp only [endAgainst] at h
  split at h
  · cases h
  · cases h
  · rename_i hfinished _
    cases h
    exact ⟨beq_eq_false_iff_ne.2 hfinished, rfl⟩

/-- What an accepted record leads to. -/
inductive Commanded (pos : Position) (cs : List Char) : Position → Prop
  | moved {m : Move} {next : Position} : Move.ofText? cs = some m → pos.apply m = .ok next →
      Commanded pos cs next
  | gaveUp {loser : Colour} {next : Position} : Move.ofText? cs = none →
      playerBetween? "Player" " give up!" cs = some loser → pos.resign loser = .ok next →
      Commanded pos cs next
  | timeUp {winner : Colour} {next : Position} : Move.ofText? cs = none →
      playerBetween? "Time over. Player" " win!" cs = some winner →
      pos.timeOver winner.opponent = .ok next → Commanded pos cs next
  | chosen {index : Nat} {next : Position} : ruleNumber? cs = some (index + 1) →
      (Rule.preset index).bind ofRule = .ok next → Commanded pos cs next
  /-- The note of a draw by repetition changes nothing. -/
  | noted : Move.ofText? cs = none → cs = repetitionRecord.toList →
      pos.rule.threefoldRepetition = true → Commanded pos cs pos
  | drawn : Move.ofText? cs = none → cs = drawRecord.toList →
      pos.rule.threefoldRepetition = true → Commanded pos cs pos.declareRepetition

/-- The inversion of `commandBody`. -/
theorem commanded_of_commandBody {pos next : Position} {cs : List Char}
    (h : pos.commandBody cs = some next) : pos.Commanded cs next := by
  simp only [commandBody] at h
  split at h
  · exact .moved ‹_› (toOption_eq_some_iff.1 h)
  · split at h
    · exact .gaveUp ‹_› ‹_› (toOption_eq_some_iff.1 h)
    · split at h
      · exact .timeUp ‹_› ‹_› (toOption_eq_some_iff.1 h)
      · split at h
        · cases h
        · exact .chosen ‹_› (toOption_eq_some_iff.1 h)
        · split_ifs at h with hthree hnote hdraw
          · cases h
            exact .noted ‹_› hnote (by simpa using hthree)
          · cases h
            exact .drawn ‹_› hdraw (by simpa using hthree)

/-- What an operation leads to, accepted or refused: it comes down to one act of a player, to the
first position of a rule or to an image. -/
inductive Performed (pos : Position) : Position → Prop
  | refused : Performed pos pos
  | started : Performed pos pos.start
  | reset : Performed pos pos.reset
  | put {p : Point} {r : Nat × Position} : pos.put p = .ok r → Performed pos r.2
  | selected {p : Point} {next : Position} : pos.select p = .ok next → Performed pos next
  | slid {a b : Point} {r : Nat × Position} : pos.slide a b = .ok r → Performed pos r.2
  | removed {p : Point} {next : Position} : pos.remove p = .ok next → Performed pos next
  | applied {m : Move} {next : Position} : pos.apply m = .ok next → Performed pos next
  | ended {loser : Colour} {ending : Ending} {next : Position} :
      pos.endAgainst loser ending = .ok next → Performed pos next
  | drawn : Performed pos pos.declareRepetition
  | settled : Performed pos pos.settle
  | chosen {rule : Rule} {next : Position} : ofRule rule = .ok next → Performed pos next
  | turned (t : Symmetry) : Performed pos (pos.image t)

theorem performed_of_command {pos next : Position} {text : String}
    (h : pos.command text = some next) : pos.Performed next := by
  simp only [command] at h
  split at h
  · cases h
    exact .reset
  · cases commanded_of_commandBody h with
    | moved _ happly => exact .applied happly
    | gaveUp _ _ hend => exact .ended hend
    | timeUp _ _ hend => exact .ended hend
    | chosen _ hrule =>
        obtain ⟨_, _, hstart⟩ := bind_eq_ok_iff.1 hrule
        exact .chosen hstart
    | noted _ _ _ => exact .refused
    | drawn _ _ _ => exact .drawn

/-- The inversion of `perform`: an operation that is refused changes nothing. -/
theorem performed_perform (pos : Position) (op : Operation) : pos.Performed (pos.perform op) := by
  -- a refusal gives back the position itself, so only what is accepted matters
  have haccepted {e : Except Refusal Position} (h : ∀ next, e = .ok next → pos.Performed next) :
      pos.Performed (e.toOption.getD pos) := by
    cases e with
    | error refusal => exact .refused
    | ok next => exact h next rfl
  have hplayed {e : Except Refusal (Nat × Position)}
      (h : ∀ r, e = .ok r → pos.Performed r.2) :
      pos.Performed ((e.map (·.2)).toOption.getD pos) := by
    cases e with
    | error refusal => exact .refused
    | ok r => exact h r rfl
  cases op with
  | start => exact .started
  | reset => exact .reset
  | put p => exact hplayed fun r hr => .put hr
  | select p => exact haccepted fun next hnext => .selected hnext
  | slide a b => exact hplayed fun r hr => .slid hr
  | remove p => exact haccepted fun next hnext => .removed hnext
  | apply m => exact haccepted fun next hnext => .applied hnext
  | makeMove saved m =>
      apply haccepted
      intro next hnext
      obtain ⟨r, hr, rfl⟩ := map_eq_ok_iff.1 hnext
      obtain ⟨played, hplayed, rfl⟩ := map_eq_ok_iff.1 hr
      exact .applied hplayed
  | resign loser => exact haccepted fun next hnext => .ended hnext
  | timeOver loser => exact haccepted fun next hnext => .ended hnext
  | declareRepetition => exact .drawn
  | settle => exact .settled
  | command text =>
      rw [perform]
      cases hnext : pos.command text with
      | none => exact .refused
      | some next => exact performed_of_command hnext
  | setRule rule =>
      rw [perform]
      cases hnext : ofRule rule with
      | error fault => exact .refused
      | ok next => exact .chosen hnext
  | image t => exact .turned t
  | rotate degrees =>
      rw [perform, rotate?]
      cases Symmetry.rotation? degrees with
      | none => exact .refused
      | some t => exact .turned t

/-! ## Soundness -/

theorem sound_of_made {v : Variant} (h : v.Made) : (ofVariant v).Sound :=
  sound_ofVariant h.valid h.order

theorem sound_ofRule {rule : Rule} {pos : Position} (h : ofRule rule = .ok pos) : pos.Sound := by
  obtain ⟨v, hv, rfl⟩ := map_eq_ok_iff.1 h
  exact sound_of_made (Variant.made_of_ofRule hv).1

namespace Sound

variable {pos : Position}

/-- A state that fits one position fits any other of the same rule. -/
theorem of_state {next : Position} (h : pos.Sound) (hstate : next.state = pos.state)
    (hrule : next.rule = pos.rule)
    (horder : next.variant.order.Perm (Board.order next.rule.hasDiagonals)) : next.Sound := by
  -- the variants may differ in their order, which nothing but the order clause names
  rcases next with ⟨v, s⟩
  subst hstate
  refine ⟨⟨?_, horder, h.agrees, ?_, h.key⟩, ?_⟩
  · rw [hrule]
    exact h.valid
  · rw [hrule]
    exact h.counted
  · cases h.stage with
    | untouched huntouched =>
        exact .untouched ⟨huntouched.phase, huntouched.action, huntouched.owes, huntouched.quiet,
          huntouched.content⟩
    | going hturned hquiet =>
        rw [← hrule] at hquiet
        exact .going ⟨hturned.inProgress, hturned.placing, hturned.owes⟩ hquiet
    | finished hover => exact .finished hover

theorem endAgainst {next : Position} {loser : Colour} {ending : Ending} (h : pos.Sound)
    (hnext : pos.endAgainst loser ending = .ok next) : next.Sound := by
  obtain ⟨_, rfl⟩ := endAgainst_spec hnext
  exact h.finish loser.opponent ending

/-- Every operation keeps a position sound. -/
theorem performed {next : Position} (h : pos.Sound) (hnext : pos.Performed next) :
    next.Sound := by
  cases hnext with
  | refused => exact h
  | started => exact h.start
  | reset => exact h.reset
  | put hput => exact h.put hput
  | selected hselect => exact h.select hselect
  | slid hslide => exact h.slide hslide
  | removed hremove => exact h.remove hremove
  | applied happly => exact h.apply happly
  | ended hend => exact h.endAgainst hend
  | drawn => exact h.finish .draw .drawnByRepetition
  | settled => exact h.settle
  | chosen hrule => exact sound_ofRule hrule
  | turned t => exact h.image t

theorem command {text : String} {next : Position} (h : pos.Sound)
    (hnext : pos.command text = some next) : next.Sound :=
  h.performed (performed_of_command hnext)

end Sound

/-- Every reachable position is sound. -/
theorem Reachable.sound {rule : Rule} {pos : Position} (h : Reachable rule pos) : pos.Sound := by
  induction h with
  | begin hpos => exact sound_ofRule hpos
  | perform op _ ih => exact ih.performed (performed_perform _ op)
  | adopt _ hmade hrule ih => exact ih.of_state rfl hrule hmade.order
  | restore _ _ hrule hnext ih ihEarlier =>
      cases hnext
      exact ihEarlier.of_state rfl hrule.symm ih.order

/-! ## Coherence -/

/-- A position of a rule that bars emptied points, after White has closed a mill on the inner ring
and removed a man. -/
def barred : Position :=
  (ofVariant (.ofRule { millAction := .markPoint })).performAll
    [.put 8, .put 24, .put 9, .put 26, .put 15, .remove 24]

theorem Consistent.count {pos : Position} (h : pos.Consistent) (c : Side) :
    pos.state.onBoard.get c = Point.all.countP fun p => pos.contentAt p == c.man := by
  rw [h.counted.onBoard c, Layout.count_board _ h.agrees.outside (Side.man_ne_empty c)]
  rfl

/-- Whatever operations are performed, accepted or refused: nothing stands outside the live points,
the sets of points are those of the men and marks on the board, the men counted are those that stand
there, none is added to those that a side starts with, and the key is the one computed from scratch
from the board, the side to move and the removals it owes. -/
theorem reachable_coherent {rule : Rule} {pos : Position} (h : Reachable rule pos) :
    (∀ p, Point.onBoard p = false → pos.contentAt p = .empty) ∧
      (∀ c p, (pos.men c).contains p = true ↔ pos.contentAt p = c.man) ∧
      (∀ p, pos.state.marked.contains p = true ↔ pos.contentAt p = .marked) ∧
      pos.occupied = ((pos.men .white).union (pos.men .black)).union pos.state.marked ∧
      (∀ c, pos.state.onBoard.get c = Point.all.countP fun p => pos.contentAt p == c.man) ∧
      (∀ c, pos.state.onBoard.get c + pos.state.inHand.get c ≤ pos.rule.pieceCount) ∧
      pos.state.key = pos.keyFromScratch := by
  have hsound := h.sound
  exact ⟨hsound.agrees.outside, hsound.agrees.men, hsound.agrees.marked, hsound.agrees.occupied_eq,
    hsound.count, hsound.counted.within, hsound.key⟩

/-- The case of a rule that bars emptied points: White has closed a mill on the inner ring and
removed a man, whose point is marked. -/
theorem reachable_coherent_marked :
    Reachable { millAction := .markPoint } barred ∧ barred.contentAt 24 = .marked ∧
      barred.state.key = barred.keyFromScratch := by
  have hreach : Reachable { millAction := .markPoint } barred :=
    (Reachable.begin rfl).performAll _
  obtain ⟨_, _, _, _, _, _, hkey⟩ := reachable_coherent hreach
  exact ⟨hreach, by decide +kernel, hkey⟩

end Position

end Morris
