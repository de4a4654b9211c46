import Morris.Proofs.Finished
import Morris.Proofs.Progress.Placing
import Morris.Proofs.Progress.Removing
import Morris.Proofs.Progress.Sliding

/-!
# No dead positions

A game is `Played` when it begins with the first position of a rule and goes on by legal moves.
Under a lively rule, and all built-in rules are lively, no position of such a game is dead: as long
as the game is not over, the side to move can place, slide or remove (`played_legalMoves_ne_nil`).

Not every valid rule is lively. Where a mill takes several men from the other side's hand and leaves
the turn where it is, the hands may get empty at once while placing does not end, and the side to
move is left with nothing to place (`not_forall_played_legalMoves_ne_nil`).
-/

set_option autoImplicit false

namespace Morris.Position

variable {pos next : Position} {rule : Rule} {c : Side}

/-- Positions of games that go on by legal moves. -/
inductive Played (rule : Rule) : Position → Prop
  | begin {pos : Position} : ofRule rule = .ok pos → Played rule pos
  | move {pos next : Position} {m : Move} : Played rule pos → m ∈ pos.legalMoves →
      pos.apply m = .ok next → Played rule next

/-! ## A live position has a legal move -/

theorem start_eq_self (h : pos.state.phase = .placing ∨ pos.state.phase = .moving) :
    pos.start = pos := by
  rcases h with h | h <;> simp [start, h]

/-- A blocked side that removes a man to free itself touches one. -/
theorem exists_touching_of_freeing (h : pos.Consistent) (hrule : pos.rule.Lively)
    (hmarks : pos.rule.millAction ≠ .markPoint → pos.Unmarked)
    (hmen : ∀ c, pos.state.onBoard.get c ≠ 0) (hfull : pos.isFullBoardRemoval = false)
    (hfrees : pos.state.freesMover = true → pos.isBlocked pos.state.side = true)
    (hfreeing : pos.isFreeingRemoval = true) :
    ∃ q, pos.contentAt q = pos.state.side.other.man ∧
      pos.touches q pos.state.side.colour = true := by
  simp only [isFreeingRemoval, hfull, Bool.false_or, Bool.and_eq_true, Bool.or_eq_true] at hfreeing
  obtain ⟨hremoves, hwhy⟩ := hfreeing
  have hblocked : pos.isBlocked pos.state.side = true := hwhy.elim hfrees id
  -- where points are barred, a blocked side removes nothing
  have hunmarked : pos.Unmarked := by
    apply hmarks
    intro hmark
    rw [(hrule.alternates_of_markPoint hmark).2] at hremoves
    cases hremoves
  obtain ⟨b, hb⟩ := h.exists_man (hmen pos.state.side.other)
  refine h.exists_touching hunmarked hblocked (hmen _) (h.onBoard_of_man hb) ?_
  rw [hb]
  exact fun hsame => Side.other_ne _ (Side.man_inj.1 hsame)

theorem Earned.removals_ne_nil (h : pos.Earned) (hcons : pos.Consistent) (hturned : pos.Turned)
    (hrule : pos.rule.Lively) : pos.removals ≠ [] := by
  have htarget : pos.removalTarget = pos.state.side.other := by
    rw [removalTarget, h.takesOwn, PerSide.get_both]
    rfl
  obtain ⟨p, hp⟩ := hcons.exists_man (h.men pos.state.side.other)
  refine Position.removals_ne_nil hcons hturned h.action (htarget ▸ hp) fun hfreeing => ?_
  rw [htarget]
  refine Or.inr (exists_touching_of_freeing hcons hrule h.marks h.men h.notFull ?_ hfreeing)
  rw [h.frees]
  exact fun hfrees => absurd hfrees Bool.false_ne_true

theorem Arrears.removals_ne_nil (h : pos.Arrears) (hcons : pos.Consistent) (hturned : pos.Turned)
    (hrule : pos.rule.Lively) (hunbeaten : ∀ c, pos.isBeaten c = false) : pos.removals ≠ [] := by
  have hmen := hcons.men_of_handsEmpty hunbeaten h.hands
  obtain ⟨p, hp⟩ := hcons.exists_man (hmen pos.removalTarget)
  refine Position.removals_ne_nil hcons hturned h.action hp fun hfreeing => ?_
  cases htakes : pos.state.takesOwn.get pos.state.side with
  | true => exact Or.inl rfl
  | false =>
      have htarget : pos.removalTarget = pos.state.side.other := by
        rw [removalTarget, htakes]
        rfl
      rw [htarget]
      exact Or.inr (exists_touching_of_freeing hcons hrule (fun _ => h.unmarked) hmen
        (not_isFullBoardRemoval_of_moving h.phase) (fun hfrees => (h.frees hfrees).2) hfreeing)

/-- There is an empty point for a man in hand. -/
theorem Ground.vacancies_pos (h : pos.Ground c) {d : Side} (hhand : pos.state.inHand.get d ≠ 0) :
    0 < pos.vacancies := by
  have hroom := h.room
  cases d <;> simp only [PerSide.get] at hhand <;> omega

/-- A live position has a legal move. -/
theorem Live.legalMoves_ne_nil (h : pos.Live) (hsound : pos.Sound) (hrule : pos.rule.Lively) :
    pos.legalMoves ≠ [] := by
  have hturned := (hsound.stage.turned_of h.turn.inProgress).1
  cases h.turn with
  | due hdue =>
      rcases hdue.turn with ⟨hplacing, hplace, hhand⟩ | ⟨hmoving, hselect, hhand, hunmarked⟩
      · have hplacements := placements_ne_nil hsound.toConsistent hhand (hdue.vacancies_pos hhand)
        simp [legalMoves, hplace, hplacing, hplacements]
      · have hmen := hsound.two_le_onBoard (h.unbeaten pos.state.side) hhand
        rw [legalMoves_of_moving hmoving hdue.action_ne_remove]
        exact slides_ne_nil hsound.toConsistent hmoving hunmarked hhand hmen (h.free hselect)
  | earned hearned =>
      simp only [legalMoves, hearned.action]
      exact hearned.removals_ne_nil hsound.toConsistent hturned hrule
  | arrears harrears =>
      simp only [legalMoves, harrears.action]
      exact harrears.removals_ne_nil hsound.toConsistent hturned hrule h.unbeaten

/-- So has a position that is live once placing has begun. -/
theorem legalMoves_ne_nil_of_start (h : pos.start.Live) (hsound : pos.Sound)
    (hrule : pos.rule.Lively) (hover : pos.state.phase ≠ .finished) : pos.legalMoves ≠ [] := by
  have hgoing : ∀ hphase : pos.state.phase = .placing ∨ pos.state.phase = .moving,
      pos.legalMoves ≠ [] := by
    intro hphase
    rw [start_eq_self hphase] at h
    exact h.legalMoves_ne_nil hsound hrule
  cases hphase : pos.state.phase with
  -- before the first move the position lists the placements that it has once begun
  | ready =>
      have hplace := (hsound.stage.untouched_of_ready hphase).action
      rw [start_of_placing (Or.inl hphase)] at h
      have hdue := h.turn.due_of_action (by rw [mapState, hplace]; decide)
      have hhand : pos.state.inHand.get pos.state.side ≠ 0 := (hdue.of_placing rfl).2
      have hplacements := placements_ne_nil hsound.toConsistent hhand (hdue.vacancies_pos hhand)
      simp [legalMoves, hplace, hphase, hplacements]
  | placing => exact hgoing (Or.inl hphase)
  | moving => exact hgoing (Or.inr hphase)
  | finished => exact absurd hphase hover

/-! ## A legal move keeps play going -/

theorem OverOrLive.log (h : pos.OverOrLive) (m : Move) : (pos.log m).OverOrLive :=
  h.imp_right fun hlive => hlive.of_sameTurn (sameTurn_log pos m)

/-- A listed slide keeps play going. -/
theorem Live.over_or_live_slide (h : pos.Live) (hcons : pos.Consistent) (hrule : pos.rule.Lively)
    (haction : pos.state.action ≠ .remove) {a b : Point} (hb : Point.onBoard b = true)
    (hslide : pos.Slidable a b)
    (hphase : pos.state.phase = .moving ∨
      (pos.state.phase = .placing ∧ pos.rule.mayMoveWhilePlacing = true)) :
    ((pos.pick a).slideMan a b).2.OverOrLive := by
  have hdue := h.turn.due_of_action haction
  have hpicked : (pos.pick a).Consistent := hcons.of_sameMen ⟨rfl, rfl, rfl⟩ hcons.key
  -- a side that slides while men are placed plays under a rule that bars no points
  have hspec : pos.Unmarked ∧
      ((pos.state.phase = .moving ∧ (pos.rule.Alternates → pos.HandsEmpty)) ∨
        (pos.state.phase = .placing ∧ pos.rule.mayMoveWhilePlacing = true)) := by
    rcases hphase with hmoving | hmay
    · obtain ⟨_, hhand, hunmarked⟩ := hdue.of_moving hmoving
      exact ⟨hunmarked, Or.inl ⟨hmoving, fun halternates =>
        (hdue.inStep halternates).handsEmpty hhand⟩⟩
    · refine ⟨hdue.marks fun hmark => ?_, Or.inr hmay⟩
      have hnot := (hrule.alternates_of_markPoint hmark).1.1
      rw [hmay.2] at hnot
      cases hnot
  exact over_or_live_slideMan hpicked hrule (hdue.toGround.of_sameMen ⟨rfl, rfl, rfl⟩)
    ⟨hdue.owed, hdue.takesOwn, hdue.frees⟩ hdue.men h.unbeaten hspec.1 hspec.2 hslide.man hb
    hslide.free

/-- A listed placement keeps play going, the first one included. -/
theorem over_or_live_place (h : pos.start.Live) (hsound : pos.Sound) (hrule : pos.rule.Lively)
    (hphase : pos.state.phase = .ready ∨
      (pos.state.phase = .placing ∧ pos.state.action = .place)) {p : Point}
    (hp : Point.onBoard p = true) (hempty : pos.contentAt p = .empty) :
    (pos.release.start.placeMan p).2.OverOrLive := by
  have hplace : pos.state.action = .place := by
    rcases hphase with hready | ⟨_, haction⟩
    · exact (hsound.stage.untouched_of_ready hready).action
    · exact haction
  have hbegins := hphase.imp_right And.left
  have hreleased : pos.release.state.phase = .ready ∨ pos.release.state.phase = .placing := hbegins
  have hcons : pos.release.start.Consistent :=
    (hsound.of_sameTurn (sameTurn_release pos)).start.toConsistent
  rw [start_of_placing hbegins] at h
  rw [start_of_placing hreleased] at hcons ⊢
  have hdue := h.turn.due_of_action (by rw [mapState, hplace]; decide)
  have hdue' : (pos.release.mapState fun s => { s with phase := .placing }).Due :=
    hdue.of_sameTurn (sameTurn_release _)
  exact hdue'.over_or_live_placeMan hcons hrule rfl h.unbeaten hp hempty

/-- A legal move keeps play going. -/
theorem Sound.over_or_live_apply (h : pos.Sound) (hrule : pos.rule.Lively) (hlive : pos.start.Live)
    (hover : pos.state.phase ≠ .finished) {m : Move} (hm : m ∈ pos.legalMoves)
    (hnext : pos.apply m = .ok next) : next.OverOrLive := by
  rcases h.mem_legalMoves hover hm with ⟨hturned, haction, hm⟩ | ⟨haction, hm⟩ | ⟨hphase, hm⟩
  · rw [start_eq_self hturned.inProgress] at hlive
    obtain ⟨p, hp, rfl⟩ := (mem_removals_iff h.toConsistent hturned haction).1 hm
    obtain ⟨removed, hremove, rfl⟩ := (apply_remove_iff hp.onBoard).1 hnext
    obtain ⟨_, rfl⟩ := remove_ok_iff.1 hremove
    exact (hlive.over_or_live_remove h.toConsistent hrule hp).log _
  · obtain ⟨a, b, rfl, hb, hslide, hphase⟩ := h.of_mem_slides hover hm
    rw [start_eq_self (hphase.symm.imp_left And.left)] at hlive
    obtain ⟨r, hr, rfl⟩ := (apply_slide_iff (h.onBoard_of_man hslide.man) hb).1 hnext
    rw [slide_of_slidable h.toConsistent hphase haction hb hslide] at hr
    cases hr
    exact (hlive.over_or_live_slide h.toConsistent hrule haction hb hslide hphase).log _
  · obtain ⟨p, rfl, hp, hempty, hhand⟩ := of_mem_placements h.toConsistent hm
    obtain ⟨r, hr, rfl⟩ := (apply_place_iff hp).1 hnext
    have hreleased : pos.release.put p = .ok (pos.release.start.placeMan p) :=
      put_of_placing hphase rfl hp hempty hhand
    rw [hreleased] at hr
    cases hr
    exact (over_or_live_place hlive h hrule hphase hp hempty).log _

/-! ## Games -/

/-- A game that begins is live once placing has begun. -/
theorem live_start_ofVariant {v : Variant} (h : v.Made) : (ofVariant v).start.Live := by
  -- the rule is valid, so twice its number of men fits on the board
  have hvalid := (Rule.valid_iff v.rule).1 h.valid
  have hempty : ∀ q, (ofVariant v).contentAt q = .empty := content_initial v.rule.pieceCount
  have hvacancies : (ofVariant v).vacancies = 24 :=
    List.countP_eq_length.2 fun q _ => by simp [hempty q]
  have hhand : ∀ c, (ofVariant v).state.inHand.get c = v.rule.pieceCount := PerSide.get_both _
  rw [start_of_placing (Or.inl rfl)]
  refine ⟨fun c => ?_, .due ⟨⟨?_, Or.inl rfl, fun _ => Or.inr rfl, fun _ q => ?_⟩,
    ⟨rfl, rfl, rfl⟩, ?_, Or.inl ⟨rfl, rfl, ?_⟩⟩, nofun⟩
  · show decide (((ofVariant v).state.onBoard.get c) + (ofVariant v).state.inHand.get c <
      v.rule.leastCount) = false
    rw [hhand, decide_eq_false_iff_not]
    omega
  · show v.rule.pieceCount + v.rule.pieceCount ≤ (ofVariant v).vacancies
    omega
  · show (ofVariant v).contentAt q ≠ .marked
    rw [hempty]
    decide
  · exact Nat.succ_pos 23
  · show (ofVariant v).state.inHand.get .white ≠ 0
    rw [hhand]
    omega

/-- In a game that goes on by legal moves under a lively rule, every position is sound, and it is
live, once placing has begun, unless the game is over. -/
theorem Played.live (h : Played rule pos) (hrule : rule.Lively) :
    pos.Sound ∧ pos.rule = rule ∧ (pos.state.phase = .finished ∨ pos.start.Live) := by
  induction h with
  | begin hbegin =>
      obtain ⟨v, hv, rfl⟩ := map_eq_ok_iff.1 hbegin
      obtain ⟨hmade, hsame⟩ := Variant.made_of_ofRule hv
      exact ⟨sound_of_made hmade, hsame, Or.inr (live_start_ofVariant hmade)⟩
  | move _ hm hnext ih =>
      rename_i pos next m _
      obtain ⟨hsound, hsame, halive⟩ := ih
      -- the move was accepted, so the game was not over before it
      have hover : pos.state.phase ≠ .finished := by
        intro hfinished
        obtain ⟨refusal, hrefused⟩ := apply_of_finished hfinished m
        rw [hrefused] at hnext
        cases hnext
      have hnextRule : next.rule = rule :=
        (congrArg Variant.rule (variant_apply hnext)).trans hsame
      refine ⟨hsound.apply hnext, hnextRule, ?_⟩
      have hlive := hsound.over_or_live_apply (hsame ▸ hrule) (halive.resolve_left hover) hover hm
        hnext
      refine hlive.imp_right fun hlive => ?_
      rw [start_eq_self hlive.turn.inProgress]
      exact hlive

/-- In a game that goes on by legal moves under a lively rule, which every built-in rule is
(`Rule.lively_of_mem_presets`), each position has a legal move as long as the game is not over. -/
theorem played_legalMoves_ne_nil (hrule : rule.Lively) (hplayed : Played rule pos)
    (hover : pos.state.phase ≠ .finished) : pos.legalMoves ≠ [] := by
  obtain ⟨hsound, hsame, halive⟩ := hplayed.live hrule
  exact legalMoves_ne_nil_of_start (halive.resolve_left hover) hsound (hsame ▸ hrule) hover

/-! ## Raids that take several men -/

/-- Play moves one after another as long as they are legal. -/
def playLegal? (pos : Position) : List Move → Option Position
  | [] => some pos
  | m :: ms =>
      if m ∈ pos.legalMoves then (pos.apply m).toOption.bind fun next => next.playLegal? ms
      else none

theorem Played.playLegal (h : Played rule pos) {ms : List Move}
    (hnext : pos.playLegal? ms = some next) : Played rule next := by
  induction ms generalizing pos with
  | nil =>
      cases hnext
      exact h
  | cons m ms ih =>
      simp only [playLegal?] at hnext
      split at hnext
      · rename_i hm
        obtain ⟨mid, hmid, hrest⟩ := Option.bind_eq_some_iff.1 hnext
        exact ih (h.move hm (toOption_eq_some_iff.1 hmid)) hrest
      · cases hnext

/-- Three men a side, where a mill takes men from the other side's hand and leaves the turn where it
is. -/
def raiding (several : Bool) : Rule where
  pieceCount := 3
  leastCount := 2
  millAction := .takeFromHandAndMove
  mayRemoveMultiple := several

/-- White fills a line with its last man, and a man is taken from Black's hand. -/
def raid : List Move := [.place 22, .place 29, .place 23, .place 10, .place 21]

theorem raid_spec :
    (((ofVariant (.ofRule (raiding true))).playLegal? raid).any fun pos =>
      pos.state.phase == .placing && pos.legalMoves.isEmpty) = true ∧
    (((ofVariant (.ofRule (raiding false))).playLegal? raid).any fun pos =>
      pos.state.phase == .moving) = true := by
  decide +kernel

/-- Where a mill takes one man only, placing ends with the raid and White slides. -/
theorem played_legalMoves_ne_nil_raid :
    (raiding false).Lively ∧ ∃ pos, Played (raiding false) pos ∧ pos.state.phase ≠ .finished ∧
      pos.legalMoves ≠ [] := by
  have hlively : (raiding false).Lively := by decide
  obtain ⟨pos, hpos, hmoving⟩ := (Option.any_eq_true _ _).1 raid_spec.2
  rw [beq_iff_eq] at hmoving
  have hplayed : Played (raiding false) pos := (Played.begin rfl).playLegal hpos
  have hover : pos.state.phase ≠ .finished := by
    rw [hmoving]
    decide
  exact ⟨hlively, pos, hplayed, hover, played_legalMoves_ne_nil hlively hplayed hover⟩

/-- Not every position of a game that goes on by legal moves has a legal move. -/
theorem not_forall_played_legalMoves_ne_nil :
    ¬ ∀ (rule : Rule) (pos : Position), Played rule pos → pos.state.phase ≠ .finished →
      pos.legalMoves ≠ [] := by
  intro hall
  obtain ⟨pos, hpos, hstuck⟩ := (Option.any_eq_true _ _).1 raid_spec.1
  rw [Bool.and_eq_true, beq_iff_eq, List.isEmpty_iff] at hstuck
  refine hall (raiding true) pos ((Played.begin rfl).playLegal hpos) ?_ hstuck.2
  rw [hstuck.1]
  decide

end Morris.Position
