import Morris.Engine
import Morris.Moves.Legal
import Morris.Proofs.Quiet

/-!
# Draw rules before a move

Two limits on quiet moves draw a game, the general one and the shorter one for endgames. A position
looks at them when it settles a turn, and an engine looks at them before it searches. The two agree
unless a removal is owed: a slide that closes a mill is counted, but the turn is not settled before
the removal, which sets the count back. Main statement: `isSome_drawReason_iff`, which says exactly
when an engine answers with a draw by a limit although the game goes on.
-/

set_option autoImplicit false

namespace Morris.Position

variable {pos next rest : Position} {rule : Rule} {p : Point}

/-! ## The limit for endgames -/

/-- The endgame limit is not reached while no quiet move has been made. -/
theorem not_isEndgameLimitReached_of_quiet (h : pos.Consistent) (hquiet : pos.state.quiet = 0) :
    pos.isEndgameLimitReached = false := by
  have hpos : 0 < pos.rule.endgameMoveLimit := ((Rule.valid_iff _).1 h.valid).2.2.2.2.1
  have hlimit : ¬ pos.rule.endgameMoveLimit ≤ pos.state.quiet := by omega
  simp [isEndgameLimitReached, hlimit]

theorem not_isEndgameLimitReached_of_placing (h : pos.state.phase = .placing) :
    pos.isEndgameLimitReached = false := by
  simp [isEndgameLimitReached, isEndgame, h]

/-- Once men slide, the endgame limit depends on the men and the count of quiet moves alone. -/
theorem SameMen.isEndgameLimitReached (hsame : pos.SameMen next)
    (hmoving : pos.state.phase = .moving) (h : pos.isEndgameLimitReached = false) :
    next.isEndgameLimitReached = false := by
  have hendgame : next.isEndgame = true → pos.isEndgame = true := by
    simp only [isEndgame, hsame.layout, hmoving, Bool.and_eq_true]
    exact fun hnext => ⟨rfl, hnext.2⟩
  simp only [Position.isEndgameLimitReached, hsame.rule, hsame.quiet] at h ⊢
  cases hnext : next.isEndgame with
  | false => simp
  | true =>
      rw [hendgame hnext] at h
      exact h

/-- The game is over, the side that has moved is to remove a man next, or the limit for endgames is
not reached. -/
def EndgameOpen (mover : Side) (pos : Position) : Prop :=
  pos.state.phase = .finished ∨ (pos.state.action = .remove ∧ pos.state.side = mover) ∨
    pos.isEndgameLimitReached = false

variable {mover : Side}

theorem endgameOpen_of_quiet (h : pos.Consistent) (hquiet : pos.state.quiet = 0) :
    pos.EndgameOpen mover :=
  Or.inr (Or.inr (not_isEndgameLimitReached_of_quiet h hquiet))

theorem EndgameOpen.turnToRemoval (h : pos.isEndgameLimitReached = false) :
    pos.turnToRemoval.EndgameOpen mover := by
  simp only [Position.turnToRemoval]
  split <;> exact Or.inr (Or.inr h)

/-- Settling a game in progress looks at the limit. -/
theorem Settling.endgameOpen (h : pos.Settling next)
    (hphase : pos.state.phase = .placing ∨ pos.state.phase = .moving) : next.EndgameOpen mover := by
  cases h with
  | idle hidle =>
      rcases hidle with h | h <;> rcases hphase with h' | h' <;> rw [h] at h' <;> cases h'
  | finished winner ending => exact Or.inl rfl
  | passed hstuck =>
      apply EndgameOpen.turnToRemoval
      exact (sameMen_giveTurn pos _).isEndgameLimitReached hstuck.moving hstuck.endgame
  | freed frees hstuck _ => exact EndgameOpen.turnToRemoval hstuck.endgame
  | kept hgoes _ => exact EndgameOpen.turnToRemoval hgoes.endgame

/-! ## Accepted moves -/

theorem AfterShift.endgameOpen (h : pos.AfterShift next) : next.EndgameOpen pos.state.side := by
  cases h with
  | calm slid =>
      have hturned := turned_giveTurn (pos.remember slid) (pos.remember slid).state.side.other
      exact (settling_settle _).endgameOpen hturned.inProgress
  | owed slid _ => exact Or.inr (Or.inl ⟨rfl, rfl⟩)

theorem endgameOpen_slideMan (pos : Position) (a b : Point) :
    (pos.slideMan a b).2.EndgameOpen pos.state.side := by
  obtain ⟨opened, n, hn⟩ := slideMan_snd pos a b
  have hside : ((pos.shift a b).scoreMills b pos.state.side).2.state.side = pos.state.side :=
    (sameTurn_scoreMills (pos.shift a b) b pos.state.side).side
  have hopen := (afterShift_cases ((pos.shift a b).scoreMills b pos.state.side).2 a b opened
    n).endgameOpen
  rw [hside] at hopen
  rw [hn]
  exact hopen

theorem Sound.endgameOpen_putting (h : pos.Sound) (hput : pos.Putting p next) :
    next.EndgameOpen pos.state.side := by
  have hnext := h.putting hput
  cases hput with
  | placed hphase hp hfree hhand =>
      have hstart := start_of_placing (hphase.imp_right And.left)
      have hbegun := h.start
      rw [hstart] at hbegun hnext ⊢
      exact endgameOpen_of_quiet hnext.toConsistent
        (quiet_placeMan hbegun.toConsistent hp hfree hhand)
  | picked hplacing _ _ _ => exact Or.inr (Or.inr (not_isEndgameLimitReached_of_placing hplacing))
  | slid _ _ _ _ _ => exact endgameOpen_slideMan pos _ p

/-- After an accepted move the limit for endgames is reached only if a removal by the same side
comes next. -/
theorem Sound.endgameOpen_apply (h : pos.Sound) {m : Move} (hnext : pos.apply m = .ok next) :
    next.EndgameOpen pos.state.side := by
  obtain ⟨played, hplayed, rfl⟩ := apply_ok_iff.1 hnext
  show played.EndgameOpen pos.state.side
  cases hplayed with
  | placed _ hput =>
      have hreleased := h.of_sameTurn (sameTurn_release pos)
      exact hreleased.endgameOpen_putting (hreleased.put_cases hput)
  | slid _ hslide =>
      obtain ⟨picked, hselect, hput⟩ := bind_eq_ok_iff.1 hslide
      have hpicked := h.select hselect
      have hside : picked.state.side = pos.state.side := by
        obtain ⟨_, _, _, _, rfl⟩ := select_ok_iff.1 hselect
        rfl
      -- picking a man up leaves the turn
      rw [← hside]
      exact hpicked.endgameOpen_putting (hpicked.put_cases hput)
  | removed _ hremove =>
      exact endgameOpen_of_quiet (h.remove hremove).toConsistent
        (quiet_remove h.toConsistent hremove)

theorem PlayedBy.endgameOpen {admits : Move → Prop} (h : PlayedBy admits rule pos) :
    ∃ mover, pos.EndgameOpen mover := by
  cases h with
  | begin hbegin =>
      obtain ⟨v, hv, rfl⟩ := map_eq_ok_iff.1 hbegin
      exact ⟨.white, endgameOpen_of_quiet
        (sound_of_made (Variant.made_of_ofRule hv).1).toConsistent rfl⟩
  | move hplayed _ hnext => exact ⟨_, hplayed.sound.endgameOpen_apply hnext⟩

end Morris.Position

namespace Morris.Engine

open Position

variable {pos : Position} {rule : Rule}

/-! ## Engines and positions -/

/-- Men may slide: placing is over, or the rule allows it meanwhile. -/
def MaySlide (pos : Position) : Prop :=
  pos.state.phase = .moving ∨
    (pos.state.phase = .placing ∧ pos.rule.mayMoveWhilePlacing = true)

/-- Without a history, an engine answers with a draw where men may slide and a limit is reached. -/
theorem isSome_drawReason_nil (pos : Position) :
    (drawReason? pos []).isSome = true ↔ MaySlide pos ∧
      (pos.rule.moveLimit ≤ pos.state.quiet ∨ pos.isEndgameLimitReached = true) := by
  have hslide : (pos.state.phase == .moving
      || (pos.state.phase == .placing && pos.rule.mayMoveWhilePlacing)) = true ↔ MaySlide pos := by
    simp [MaySlide]
  simp only [drawReason?]
  by_cases hmay : MaySlide pos
  · rw [hslide.2 hmay]
    by_cases hlimit : pos.rule.moveLimit ≤ pos.state.quiet <;>
      cases hendgame : pos.isEndgameLimitReached <;> simp [hmay, hlimit]
  · rw [eq_false_of_ne_true (mt hslide.1 hmay)]
    simp [hmay]

/-- In a game of accepted moves that is not over, an engine without a history answers with a draw
exactly if the side to move owes a removal and the slide that earned it has reached a limit on quiet
moves. In all other positions the game has been ended before the engine could draw it. -/
theorem isSome_drawReason_iff {admits : Move → Prop} (h : PlayedBy admits rule pos)
    (hover : pos.state.phase ≠ .finished) :
    (drawReason? pos []).isSome = true ↔ pos.state.action = .remove ∧ MaySlide pos ∧
      (pos.state.quiet = pos.rule.moveLimit ∨ pos.isEndgameLimitReached = true) := by
  have hsound := h.sound
  have hle : pos.state.quiet ≤ pos.rule.moveLimit :=
    hsound.quiet_le (by simp [isOver, hover])
  rw [isSome_drawReason_nil]
  constructor
  · rintro ⟨hmay, hlimit⟩
    have hphase : pos.state.phase = .placing ∨ pos.state.phase = .moving :=
      hmay.symm.imp_left And.left
    -- a side that is not to remove has its limits open: a move that reaches one ends the game
    have hremove : pos.state.action = .remove := by
      refine Decidable.byContradiction fun hnot => ?_
      have hquiet := hsound.stage.quiet_lt hphase hnot
      rcases hlimit with hlimit | hendgame
      · omega
      · obtain ⟨mover, hdone | ⟨haction, _⟩ | hopen⟩ := h.endgameOpen
        · exact hover hdone
        · exact hnot haction
        · rw [hopen] at hendgame
          cases hendgame
    exact ⟨hremove, hmay, hlimit.imp_left fun hreached => Nat.le_antisymm hle hreached⟩
  · rintro ⟨-, hmay, hlimit⟩
    exact ⟨hmay, hlimit.imp_left fun hreached => Nat.le_of_eq hreached.symm⟩

/-- Three men a side, and the first quiet move draws the game. -/
def hasty : Rule where
  pieceCount := 3
  moveLimit := 1
  endgameMoveLimit := 1

/-- White closes a mill with the first slide. -/
def hastyMill : List Move :=
  [.place 9, .place 24, .place 11, .place 26, .place 18, .place 28, .slide 18 10]

theorem hastyMill_spec : ∃ pos, PlayedBy Move.OnBoard hasty pos ∧ pos.state.phase = .moving ∧
    pos.state.action = .remove ∧ pos.state.quiet = pos.rule.moveLimit ∧ pos.legalMoves ≠ [] := by
  have hspec : ((ofVariant (.ofRule hasty)).applyAll? hastyMill).any (fun pos =>
      decide (pos.state.phase = .moving ∧ pos.state.action = .remove ∧
        pos.state.quiet = pos.rule.moveLimit ∧ pos.legalMoves ≠ [])) = true := by
    decide +kernel
  obtain ⟨pos, hpos, hfacts⟩ := (Option.any_eq_true _ _).1 hspec
  have hmoves : ∀ m ∈ hastyMill, m.OnBoard := by decide +kernel
  exact ⟨pos, (PlayedBy.begin rfl).applyAll hmoves hpos, of_decide_eq_true hfacts⟩

/-- A mill closed by the slide that reaches the limit: White is to remove a man, and the engine
answers with a draw. -/
theorem isSome_drawReason_iff_mill : ∃ pos, PlayedBy Move.OnBoard hasty pos ∧
    pos.state.phase ≠ .finished ∧ pos.state.action = .remove ∧ pos.legalMoves ≠ [] ∧
      (drawReason? pos []).isSome = true := by
  obtain ⟨pos, hplayed, hmoving, hremove, hquiet, hlegal⟩ := hastyMill_spec
  have hover : pos.state.phase ≠ .finished := by
    rw [hmoving]
    decide
  exact ⟨pos, hplayed, hover, hremove, hlegal,
    (isSome_drawReason_iff hplayed hover).2 ⟨hremove, Or.inl hmoving, Or.inl hquiet⟩⟩

/-- It is not so that an engine never answers with a draw in a game of accepted moves that goes
on. -/
theorem not_forall_drawReason_eq_none :
    ¬ ∀ (rule : Rule) (pos : Position), PlayedBy (fun _ => True) rule pos →
      pos.state.phase ≠ .finished → drawReason? pos [] = none := by
  intro hall
  obtain ⟨pos, hplayed, hmoving, -, hquiet, -⟩ := hastyMill_spec
  have hnone := hall hasty pos (hplayed.mono fun _ _ => trivial) (by rw [hmoving]; decide)
  have hsome := (isSome_drawReason_nil pos).2 ⟨Or.inl hmoving, Or.inl (Nat.le_of_eq hquiet.symm)⟩
  rw [hnone] at hsome
  cases hsome

end Morris.Engine
