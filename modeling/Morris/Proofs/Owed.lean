import Morris.Proofs.Progress.Frame
import Morris.Proofs.Reachable

/-!
# Who owes removals

Removals come to be owed in many ways: by closing a mill, by a hand that falls short of what a mill
takes from it, on a full board, by the number of mills at the end of placing, and by a side that can
slide nowhere. `Position.Ledger` says what all of them leave behind: the side to move is the first
to pay, both sides owe only when the men are all on the board, a side that takes its own men owes
some of them, and a removal that frees the mover is the only one owed.

The move that comes after nothing is owed (`Position.Clear`) or after the last removal of a side has
been made (`Position.Paid`) leaves a ledger again or ends the game (`Position.Balanced`). The main
result is `Position.reachable_owed`.
-/

set_option autoImplicit false

namespace Morris.Position

variable {pos next : Position}

/-! ## The ledger -/

/-- What is owed, and by whom. -/
structure Ledger (pos : Position) : Prop where
  /-- The side to move is the first to make its removals. -/
  first : pos.state.owed.get pos.state.side = 0 → pos.state.owed.get pos.state.side.other = 0
  /-- The other side owes removals only when no man is left to place. -/
  later : pos.state.owed.get pos.state.side.other ≠ 0 →
    pos.state.phase = .moving ∧ pos.HandsEmpty
  takesOwn : ∀ c, pos.state.takesOwn.get c = true →
    pos.state.owed.get c ≠ 0 ∧ pos.rule.millAction = .countMillsLater
  /-- A removal that frees the mover is the only one owed. -/
  frees : pos.state.freesMover = true → pos.state.phase = .moving ∧
    pos.state.owed.get pos.state.side ≠ 0 ∧ pos.state.owed.get pos.state.side.other = 0

/-- The game is over, or what is owed is in order. -/
def Balanced (pos : Position) : Prop := pos.state.phase = .finished ∨ pos.Ledger

/-- All that the ledger is made of is as in the first position. -/
structure SameLedger (pos next : Position) : Prop where
  rule : next.rule = pos.rule
  side : next.state.side = pos.state.side
  owed : next.state.owed = pos.state.owed
  takesOwn : next.state.takesOwn = pos.state.takesOwn
  frees : next.state.freesMover = pos.state.freesMover
  phase : pos.state.phase = .moving → next.state.phase = .moving
  inHand : next.state.inHand = pos.state.inHand

theorem SameTurn.sameLedger (h : pos.SameTurn next) : pos.SameLedger next where
  rule := h.rule
  side := h.side
  owed := h.owed
  takesOwn := h.takesOwn
  frees := h.frees
  phase hmoving := h.phase.trans hmoving
  inHand := by rw [h.layout]

/-- The ledger is in order if all that it is made of is the same. -/
theorem Ledger.of_same (hledger : pos.Ledger) (h : pos.SameLedger next) : next.Ledger where
  first := by
    rw [h.owed, h.side]
    exact hledger.first
  later := by
    rw [h.owed, h.side, HandsEmpty, h.inHand]
    intro howes
    obtain ⟨hmoving, hhands⟩ := hledger.later howes
    exact ⟨h.phase hmoving, hhands⟩
  takesOwn := by
    rw [h.takesOwn, h.owed, h.rule]
    exact hledger.takesOwn
  frees := by
    rw [h.frees, h.owed, h.side]
    intro hfrees
    obtain ⟨hmoving, howes⟩ := hledger.frees hfrees
    exact ⟨h.phase hmoving, howes⟩

theorem Ledger.balanced (h : pos.Ledger) : pos.Balanced := Or.inr h

theorem balanced_finish (pos : Position) (winner : Colour) (ending : Ending) :
    (pos.finish winner ending).Balanced := Or.inl rfl

theorem Balanced.ledger (h : pos.Balanced) (hgoes : pos.state.phase ≠ .finished) : pos.Ledger :=
  h.resolve_left hgoes

/-! ## Nothing is owed -/

theorem Clear.owed_get (h : pos.Clear) (c : Side) : pos.state.owed.get c = 0 := by
  rw [h.owed, PerSide.get_both]

/-- Where nothing is owed, the ledger is in order. -/
theorem Clear.ledger (h : pos.Clear) : pos.Ledger where
  first _ := h.owed_get _
  later howes := absurd (h.owed_get _) howes
  takesOwn c htakes := by
    rw [h.takesOwn, PerSide.get_both] at htakes
    cases htakes
  frees hfrees := by
    rw [h.frees] at hfrees
    cases hfrees

/-- Nothing is owed if neither side owes a removal, since the flags go with the removals. -/
theorem clear_of_owed (hown : pos.state.owed.get pos.state.side = 0)
    (hother : pos.state.owed.get pos.state.side.other = 0)
    (htakesOwn : ∀ c, pos.state.takesOwn.get c = true → pos.state.owed.get c ≠ 0)
    (hfrees : pos.state.freesMover = false) : pos.Clear := by
  have howed : ∀ c, pos.state.owed.get c = 0 := by
    intro c
    rcases Side.eq_or_eq_other c pos.state.side with rfl | rfl
    · exact hown
    · exact hother
  refine ⟨PerSide.eq_both howed, PerSide.eq_both fun c => ?_, hfrees⟩
  apply eq_false_of_ne_true
  exact fun htakes => htakesOwn c htakes (howed c)

/-- If the side to move owes nothing, nobody does. -/
theorem Ledger.clear (h : pos.Ledger) (hzero : pos.state.owed.get pos.state.side = 0) :
    pos.Clear := by
  refine clear_of_owed hzero (h.first hzero) (fun c htakes => (h.takesOwn c htakes).1) ?_
  apply eq_false_of_ne_true
  exact fun hfrees => (h.frees hfrees).2.1 hzero

theorem Clear.giveTurn (h : pos.Clear) (c : Side) : (pos.giveTurn c).Clear :=
  ⟨h.owed, h.takesOwn, h.frees⟩

theorem Clear.drop (h : pos.Clear) (p : Point) : (pos.drop p).Clear := ⟨h.owed, h.takesOwn, h.frees⟩

theorem Clear.shift (h : pos.Clear) (a b : Point) : (pos.shift a b).Clear :=
  ⟨h.owed, h.takesOwn, h.frees⟩

theorem clear_initial (v : Variant) : (ofVariant v).Clear := ⟨rfl, rfl, rfl⟩

/-! ## Removals come to be owed -/

/-- The side to move of a position in which nothing is owed comes to owe some removals. -/
theorem Clear.ledger_of_owed (h : pos.Clear) {n : Nat} (hside : next.state.side = pos.state.side)
    (howed : next.state.owed = pos.state.owed.set pos.state.side n)
    (htakesOwn : next.state.takesOwn = pos.state.takesOwn)
    (hfrees : next.state.freesMover = pos.state.freesMover ∨
      (next.state.phase = .moving ∧ n ≠ 0)) : next.Ledger := by
  have hown : next.state.owed.get next.state.side = n := by
    rw [howed, hside, PerSide.get_set_self]
  have hother : next.state.owed.get next.state.side.other = 0 := by
    rw [howed, hside, PerSide.get_set_of_ne _ _ (Side.other_ne _), h.owed_get]
  constructor
  case first => exact fun _ => hother
  case later => exact fun howes => absurd hother howes
  case takesOwn =>
    intro c htakes
    rw [htakesOwn, h.takesOwn, PerSide.get_both] at htakes
    cases htakes
  case frees =>
    intro htrue
    rcases hfrees with hsame | ⟨hmoving, hn⟩
    · rw [hsame, h.frees] at htrue
      cases htrue
    · refine ⟨hmoving, ?_, hother⟩
      rw [hown]
      exact hn

/-- Both sides come to owe removals when no man is left to place. -/
theorem ledger_of_both (hphase : pos.state.phase = .moving) (hhands : pos.HandsEmpty)
    (howed : ∀ c, pos.state.owed.get c ≠ 0)
    (htakesOwn : ∀ c, pos.state.takesOwn.get c = true → pos.rule.millAction = .countMillsLater)
    (hfrees : pos.state.freesMover = false) : pos.Ledger where
  first hzero := absurd hzero (howed _)
  later _ := ⟨hphase, hhands⟩
  takesOwn c htakes := ⟨howed c, htakesOwn c htakes⟩
  frees htrue := by
    rw [hfrees] at htrue
    cases htrue

/-- A side that has earned removals is the only one to owe any. -/
theorem Clear.ledger_oweRemovals (h : pos.Clear) (n : Nat) : (pos.oweRemovals n).Ledger :=
  h.ledger_of_owed (n := n) rfl rfl rfl (Or.inl rfl)

/-- The turn of a position in which both sides come to owe a removal. -/
theorem Clear.ledger_bothOwe (h : pos.Clear) (hhands : pos.HandsEmpty) (c : Side) :
    ((pos.mapState fun s => { s with owed := .both 1 }).giveTurn c).Ledger := by
  refine ledger_of_both (moving_giveTurn (hhands c)) hhands (fun d => ?_) (fun d htakes => ?_)
    h.frees
  · show (PerSide.both 1).get d ≠ 0
    rw [PerSide.get_both]
    exact Nat.one_ne_zero
  · have hnone : pos.state.takesOwn.get d = true := htakes
    rw [h.takesOwn, PerSide.get_both] at hnone
    cases hnone

theorem Clear.ledger_moverOwes (h : pos.Clear) :
    (pos.mapState fun s => { s with owed := s.owed.set s.side 1 }).keepTurn.Ledger :=
  h.ledger_of_owed (n := 1) rfl rfl rfl (Or.inl rfl)

/-- Whatever becomes of a full board, the ledger is in order. -/
theorem Clear.balanced_resolveFullBoard (h : pos.Clear) (hhands : pos.HandsEmpty) :
    pos.resolveFullBoard.Balanced := by
  simp only [resolveFullBoard]
  split
  · exact balanced_finish pos _ _
  · exact (h.ledger_bothOwe hhands _).balanced
  · exact (h.ledger_bothOwe hhands _).balanced
  · exact (h.giveTurn _).ledger_moverOwes.balanced
  · exact balanced_finish pos _ _

/-- The end of placing leaves the ledger in order, whoever owes removals for mills. -/
theorem Clear.ledger_endPlacing (h : pos.Clear) {ended : Position}
    (hended : pos.endPlacing? = some ended) : ended.Ledger := by
  obtain ⟨hdone, hend⟩ := placingEnd_of_endPlacing hended
  have hhands : pos.HandsEmpty := hands_of_isPlacingDone hdone
  cases hend with
  | lifted _ => exact (h.clearMarks.giveTurn _).ledger
  | counted hcount =>
      -- whatever the mills, each side owes at least one removal
      exact ledger_of_both (moving_giveTurn (hhands _)) hhands
        (fun c => removalsForMills_ne_zero _ _ c) (fun _ _ => hcount) h.frees
  | plain _ _ => exact (h.giveTurn _).ledger

/-! ## Settling -/

theorem Ledger.turnToRemoval (h : pos.Ledger) : pos.turnToRemoval.Ledger := by
  simp only [Position.turnToRemoval]
  split
  · exact h
  · exact h.of_same ⟨rfl, rfl, rfl, rfl, rfl, id, rfl⟩

theorem Turned.owed_eq_zero (h : pos.Turned) (haction : pos.state.action ≠ .remove) :
    pos.state.owed.get pos.state.side = 0 := by
  by_contra howes
  exact haction (h.owes.2 howes)

/-- Settling keeps the ledger in order if a side that is to slide owes nothing. -/
theorem Ledger.settle (h : pos.Ledger)
    (hselect : pos.state.action = .select → pos.state.owed.get pos.state.side = 0) :
    pos.settle.Balanced := by
  have hsettling := settling_settle pos
  generalize pos.settle = next at hsettling
  cases hsettling with
  | idle _ => exact h.balanced
  | finished winner ending => exact balanced_finish pos winner ending
  | passed hstuck =>
      -- a side that is blocked was to slide, so nothing is owed
      have hclear := h.clear (hselect hstuck.action)
      exact (hclear.giveTurn _).ledger.turnToRemoval.balanced
  | freed frees hstuck _ =>
      have hclear := h.clear (hselect hstuck.action)
      have howes : (pos.mapState fun s => { s with freesMover := frees }).oweFreeing.Ledger :=
        hclear.ledger_of_owed (n := 1) rfl rfl rfl (Or.inr ⟨hstuck.moving, Nat.one_ne_zero⟩)
      exact howes.turnToRemoval.balanced
  | kept _ _ => exact h.turnToRemoval.balanced

theorem Ledger.settle_of_turned (h : pos.Ledger) (hturned : pos.Turned) : pos.settle.Balanced := by
  apply h.settle
  intro hselect
  apply hturned.owed_eq_zero
  rw [hselect]
  decide

/-- Settling a position in which nothing is owed keeps the ledger in order. -/
theorem Clear.settle (h : pos.Clear) : pos.settle.Balanced := h.ledger.settle fun _ => h.owed_get _

theorem Clear.settle_endPlacing (h : pos.Clear) {ended : Position}
    (hended : pos.endPlacing? = some ended) : ended.settle.Balanced :=
  (h.ledger_endPlacing hended).settle_of_turned (placingEnd_of_endPlacing hended).2.turned

theorem Clear.settle_endPlacingOrPass (h : pos.Clear) : pos.endPlacingOrPass.settle.Balanced := by
  simp only [endPlacingOrPass]
  cases hended : pos.endPlacing? with
  | some ended => exact h.settle_endPlacing hended
  | none => exact (h.giveTurn _).settle

/-! ## After a placement or a slide -/

/-- A hand that has men enough pays for a mill at once. -/
theorem Clear.raidHand (h : pos.Clear) {n : Nat}
    (henough : n ≤ pos.state.inHand.get pos.state.side.other) : (pos.raidHand n).Clear := by
  have howed : (pos.raidHand n).state.owed = pos.state.owed.set pos.state.side
      (n - min n (pos.state.inHand.get pos.state.side.other)) := rfl
  refine ⟨?_, h.takesOwn, h.frees⟩
  rw [howed, Nat.min_eq_left henough, Nat.sub_self, h.owed]
  cases pos.state.side <;> rfl

/-- What a mill takes from the other side's hand is not owed, and the rest is. -/
theorem Clear.balanced_takeFromHand (h : pos.Clear) (n : Nat) : (pos.takeFromHand n).Balanced := by
  have howed : (pos.raidHand n).state.owed = pos.state.owed.set pos.state.side
      (n - min n (pos.state.inHand.get pos.state.side.other)) := rfl
  simp only [takeFromHand]
  split
  -- what the hand cannot pay is owed on the board
  · have hshort : ((pos.raidHand n).mapState fun s => { s with action := .remove }).Ledger :=
      h.ledger_of_owed rfl howed rfl (Or.inl rfl)
    exact hshort.balanced
  · rename_i henough
    have hclear := h.raidHand (Nat.le_of_not_lt henough)
    split
    · exact hclear.settle_endPlacing ‹_›
    · split
      · exact (hclear.giveTurn _).settle
      · exact hclear.settle

/-- A board with twelve men of each side leaves no man in hand. -/
theorem Consistent.handsEmpty_of_full (h : pos.Consistent) (hfull : 24 ≤ pos.totalOnBoard) :
    pos.HandsEmpty := by
  have hwhite := h.onBoard_le .white
  have hblack := h.onBoard_le .black
  rw [totalOnBoard] at hfull
  simp only [PerSide.get] at hwhite hblack
  intro c
  cases c <;> simp only [PerSide.get] <;> omega

/-- What follows a placement leaves the ledger in order. -/
theorem Clear.balanced_afterDrop (h : pos.Clear) (hcons : pos.Consistent) (n : Nat) :
    (pos.afterDrop n).Balanced := by
  simp only [afterDrop]
  split
  · exact h.settle_endPlacingOrPass
  · split
    · split
      · rename_i hfull
        simp only [Bool.and_eq_true, decide_eq_true_eq] at hfull
        exact h.balanced_resolveFullBoard (hcons.handsEmpty_of_full hfull.2)
      · exact h.settle_endPlacingOrPass
    · split
      · exact h.balanced_takeFromHand _
      · exact h.balanced_takeFromHand _
      · exact (h.ledger_oweRemovals _).balanced

/-- What follows a slide leaves the ledger in order. -/
theorem AfterShift.balanced (hafter : pos.AfterShift next) (h : pos.Clear) : next.Balanced := by
  have hremember : ∀ slid, (pos.remember slid).Clear := fun slid =>
    h.of_sameTurn (sameTurn_remember pos slid)
  cases hafter with
  | calm slid => exact ((hremember slid).giveTurn _).settle
  | owed slid _ => exact ((hremember slid).ledger_oweRemovals _).balanced

theorem Clear.balanced_placeMan (h : pos.Clear) (hcons : pos.Consistent) {p : Point}
    (hp : Point.onBoard p = true) (hfree : pos.contentAt p = .empty)
    (hhand : pos.state.inHand.get pos.state.side ≠ 0) : (pos.placeMan p).2.Balanced := by
  obtain ⟨n, hn⟩ := placeMan_snd pos p
  have hclosed := (hcons.drop hp hfree hhand).scoreMills p pos.state.side
  rw [hn]
  have hscored := (h.drop p).of_sameTurn (sameTurn_scoreMills _ p pos.state.side)
  exact hscored.balanced_afterDrop hclosed n

theorem Clear.balanced_slideMan (h : pos.Clear) (a b : Point) :
    (pos.slideMan a b).2.Balanced := by
  obtain ⟨opened, n, hn⟩ := slideMan_snd pos a b
  have hclosed := (h.shift a b).of_sameTurn (sameTurn_scoreMills _ b pos.state.side)
  rw [hn]
  exact (afterShift_cases _ a b opened n).balanced hclosed

/-! ## After a removal -/

/-- The side to move has made the last removal that it owed. -/
structure Paid (pos : Position) : Prop where
  owed : pos.state.owed.get pos.state.side = 0
  later : pos.state.owed.get pos.state.side.other ≠ 0 →
    pos.state.phase = .moving ∧ pos.HandsEmpty
  takesOwn : ∀ c, pos.state.takesOwn.get c = true →
    pos.state.owed.get c ≠ 0 ∧ pos.rule.millAction = .countMillsLater
  frees : pos.state.freesMover = true → pos.state.phase = .moving ∧
    pos.state.owed.get pos.state.side.other = 0

/-- A side that has paid hands the turn on to one that may owe removals. -/
theorem Paid.ledger_passTurn (h : pos.Paid) (hfrees : pos.state.freesMover = false) :
    pos.passTurn.Ledger := by
  have hother : pos.passTurn.state.owed.get pos.passTurn.state.side.other = 0 := by
    show pos.state.owed.get pos.state.side.other.other = 0
    rw [Side.other_other]
    exact h.owed
  exact ⟨fun _ => hother, fun howes => absurd hother howes, h.takesOwn, fun htrue => by
    rw [show pos.passTurn.state.freesMover = false from hfrees] at htrue
    cases htrue⟩

/-- Once the last removal is made, the turn goes on with the ledger in order. -/
theorem Paid.ledger_afterRemovals (h : pos.Paid) : pos.afterRemovals.Ledger := by
  simp only [afterRemovals]
  split
  · rename_i ended hended
    obtain ⟨hdone, _⟩ := placingEnd_of_endPlacing hended
    simp only [isPlacingDone, Bool.and_eq_true, beq_iff_eq] at hdone
    obtain ⟨⟨⟨⟨hplacing, _⟩, _⟩, hwhite⟩, hblack⟩ := hdone
    have hother : pos.state.owed.get pos.state.side.other = 0 := by
      cases pos.state.side.other with
      | white => exact hwhite
      | black => exact hblack
    -- a removal that frees the mover is made after placing
    have hfrees : pos.state.freesMover = false := by
      apply eq_false_of_ne_true
      intro htrue
      cases hplacing.symm.trans (h.frees htrue).1
    have hclear := clear_of_owed h.owed hother (fun c htakes => (h.takesOwn c htakes).1) hfrees
    exact hclear.ledger_endPlacing hended
  · split
    · rename_i hfrees
      have hclear : (pos.mapState fun s => { s with freesMover := false }).Clear :=
        clear_of_owed h.owed (h.frees hfrees).2 (fun c htakes => (h.takesOwn c htakes).1) rfl
      exact (hclear.giveTurn _).ledger
    · exact h.ledger_passTurn (eq_false_of_ne_true ‹_›)

/-- What is owed after a removal of one man. -/
theorem Ledger.taken {target : Side} (h : pos.Ledger) (hframe : pos.TakeFrame target next) :
    (next.state.owed.get next.state.side ≠ 0 → next.Ledger) ∧
      (next.state.owed.get next.state.side = 0 → next.Paid) := by
  have hown : next.state.owed.get next.state.side = pos.state.owed.get pos.state.side - 1 := by
    rw [hframe.owed, hframe.side, PerSide.get_set_self]
  have hother : next.state.owed.get next.state.side.other =
      pos.state.owed.get pos.state.side.other := by
    rw [hframe.owed, hframe.side, PerSide.get_set_of_ne _ _ (Side.other_ne _)]
  have hlater : next.state.owed.get next.state.side.other ≠ 0 →
      next.state.phase = .moving ∧ next.HandsEmpty := by
    rw [hother, hframe.phase, HandsEmpty, hframe.inHand]
    exact h.later
  have htakesOwn : ∀ c, next.state.takesOwn.get c = true →
      next.state.owed.get c ≠ 0 ∧ next.rule.millAction = .countMillsLater := by
    intro c htakes
    rw [hframe.takesOwn] at htakes
    rw [hframe.rule, hframe.owed]
    rcases Side.eq_or_eq_other c pos.state.side with rfl | rfl
    · -- the side that has made its last removal takes its own men no longer
      rw [PerSide.get_set_self]
      split at htakes
      · rw [PerSide.get_set_self] at htakes
        cases htakes
      · exact ⟨‹_›, (h.takesOwn _ htakes).2⟩
    · rw [PerSide.get_set_of_ne _ _ (Side.other_ne _)]
      apply h.takesOwn
      split at htakes
      · rwa [PerSide.get_set_of_ne _ _ (Side.other_ne _)] at htakes
      · exact htakes
  have hfrees : next.state.freesMover = true → next.state.phase = .moving ∧
      next.state.owed.get next.state.side.other = 0 := by
    intro htrue
    rw [hframe.frees] at htrue
    obtain ⟨hmoving, _, hzero⟩ := h.frees htrue
    exact ⟨hframe.phase.trans hmoving, hother.trans hzero⟩
  refine ⟨fun howes => ⟨fun hzero => absurd hzero howes, hlater, htakesOwn, fun htrue => ?_⟩,
    fun hzero => ⟨hzero, hlater, htakesOwn, hfrees⟩⟩
  obtain ⟨hmoving, hzero⟩ := hfrees htrue
  exact ⟨hmoving, howes, hzero⟩

/-- What follows a removal leaves the ledger in order. -/
theorem Ledger.balanced_afterTaking {target : Side} (h : pos.Ledger)
    (hframe : pos.TakeFrame target next) (loser : Side) : (next.afterTaking loser).Balanced := by
  obtain ⟨hmore, hpaid⟩ := h.taken hframe
  simp only [afterTaking]
  split
  · exact balanced_finish next _ _
  · split
    · exact (hmore ‹_›).balanced
    · rename_i hzero
      have hledger := (hpaid (Decidable.not_not.1 hzero)).ledger_afterRemovals
      split
      · exact hledger.settle_of_turned (afterRemovals_cases next).turned
      · exact hledger.balanced

/-! ## Operations of a player -/

/-- Who does not have to remove owes nothing. -/
theorem Ledger.clear_of_action (h : pos.Ledger) (hsound : pos.Sound)
    (hgoes : pos.state.phase ≠ .finished) (haction : pos.state.action ≠ .remove) : pos.Clear := by
  apply h.clear
  cases hsound.stage with
  | untouched huntouched => exact huntouched.owes _
  | going hturned _ => exact hturned.owed_eq_zero haction
  | finished hover => exact absurd hover hgoes

theorem clear_reset (pos : Position) : pos.reset.Clear := ⟨rfl, rfl, rfl⟩

namespace Balanced

theorem of_same (hbalanced : pos.Balanced) (h : pos.SameLedger next)
    (hphase : next.state.phase = pos.state.phase) : next.Balanced := by
  rcases hbalanced with hover | hledger
  · exact Or.inl (hphase.trans hover)
  · exact (hledger.of_same h).balanced

theorem start (h : pos.Balanced) : pos.start.Balanced := by
  simp only [Position.start]
  split
  · rename_i hready
    have hledger := h.ledger (by rw [hready]; decide)
    have hsame : pos.SameLedger (pos.mapState fun s => { s with phase := .placing }) := by
      refine ⟨rfl, rfl, rfl, rfl, rfl, fun hmoving => ?_, rfl⟩
      cases hready.symm.trans hmoving
    exact (hledger.of_same hsame).balanced
  · have hclear : (pos.reset.mapState fun s => { s with phase := .placing }).Clear :=
      ⟨rfl, rfl, rfl⟩
    exact hclear.ledger.balanced
  · exact h

theorem settle (h : pos.Balanced) (hsound : pos.Sound) : pos.settle.Balanced := by
  by_cases hover : pos.state.phase = .finished
  · left
    simp only [Position.settle, hover]
  · have hledger := h.ledger hover
    apply hledger.settle
    intro hselect
    exact (hledger.clear_of_action hsound hover (by rw [hselect]; decide)).owed_get _

/-- Pointing at a point keeps the ledger in order, whichever act it comes to. -/
theorem putting (h : pos.Balanced) (hsound : pos.Sound) {p : Point} (hput : pos.Putting p next) :
    next.Balanced := by
  cases hput with
  | placed hphase hp hfree hhand =>
      have hgoes : pos.state.phase ≠ .finished := by
        rcases hphase with hready | ⟨hplacing, _⟩
        · rw [hready]
          decide
        · rw [hplacing]
          decide
      have haction : pos.state.action ≠ .remove := by
        rcases hphase with hready | ⟨_, hplace, _⟩
        · rw [(hsound.stage.untouched_of_ready hready).action]
          decide
        · rw [hplace]
          decide
      have hclear := (h.ledger hgoes).clear_of_action hsound hgoes haction
      have hstarted := hsound.start
      have hstart := start_of_placing (hphase.imp_right And.left)
      rw [hstart] at hstarted ⊢
      -- beginning the game changes the phase alone
      have hplacing : (pos.mapState fun s => { s with phase := .placing }).Clear :=
        ⟨hclear.owed, hclear.takesOwn, hclear.frees⟩
      exact hplacing.balanced_placeMan hstarted.toConsistent hp hfree hhand
  | picked _ _ _ _ => exact h.of_same ⟨rfl, rfl, rfl, rfl, rfl, id, rfl⟩ rfl
  | slid hphase haction _ _ _ =>
      have hgoes : pos.state.phase ≠ .finished := by
        rcases hphase with hphase | hphase <;> rw [hphase] <;> decide
      have hclear := (h.ledger hgoes).clear_of_action hsound hgoes (by rw [haction]; decide)
      exact hclear.balanced_slideMan _ _

theorem put (h : pos.Balanced) (hsound : pos.Sound) {p : Point} {r : Nat × Position}
    (hr : pos.put p = .ok r) : r.2.Balanced :=
  h.putting hsound (hsound.put_cases hr)

theorem select (h : pos.Balanced) {p : Point} (hnext : pos.select p = .ok next) :
    next.Balanced := by
  obtain ⟨_, _, _, _, rfl⟩ := select_ok_iff.1 hnext
  exact h.of_same ⟨rfl, rfl, rfl, rfl, rfl, id, rfl⟩ rfl

theorem slide (h : pos.Balanced) (hsound : pos.Sound) {a b : Point} {r : Nat × Position}
    (hr : pos.slide a b = .ok r) : r.2.Balanced := by
  obtain ⟨picked, hselect, hput⟩ := bind_eq_ok_iff.1 hr
  exact (h.select hselect).put (hsound.select hselect) hput

theorem remove (h : pos.Balanced) {p : Point} (hnext : pos.remove p = .ok next) :
    next.Balanced := by
  obtain ⟨hremovable, rfl⟩ := remove_ok_iff.1 hnext
  have hgoes : pos.state.phase ≠ .finished := by
    rcases hremovable.inProgress with hphase | hphase <;> rw [hphase] <;> decide
  exact (h.ledger hgoes).balanced_afterTaking (takeMan_frame pos p pos.removalTarget) _

theorem of_sameTurn (hbalanced : pos.Balanced) (h : pos.SameTurn next) : next.Balanced :=
  hbalanced.of_same h.sameLedger h.phase

/-- Every accepted move keeps the ledger in order. -/
theorem apply (h : pos.Balanced) (hsound : pos.Sound) {m : Move} (hnext : pos.apply m = .ok next) :
    next.Balanced := by
  obtain ⟨played, hplayed, rfl⟩ := apply_ok_iff.1 hnext
  have hbalanced : played.Balanced := by
    cases hplayed with
    | placed _ hput =>
        have hsame := sameTurn_release pos
        exact (h.of_sameTurn hsame).put (hsound.of_sameTurn hsame) hput
    | slid _ hslide => exact h.slide hsound hslide
    | removed _ hremove => exact h.remove hremove
  exact hbalanced.of_sameTurn (sameTurn_log played m)

theorem endAgainst {loser : Colour} {ending : Ending}
    (hnext : pos.endAgainst loser ending = .ok next) : next.Balanced := by
  obtain ⟨_, rfl⟩ := endAgainst_spec hnext
  exact balanced_finish pos _ _

theorem ofRule {rule : Rule} (hnext : Position.ofRule rule = .ok next) : next.Balanced := by
  obtain ⟨v, _, rfl⟩ := map_eq_ok_iff.1 hnext
  exact (clear_initial v).ledger.balanced

/-- The image of a position owes the same. -/
theorem image (h : pos.Balanced) (t : Symmetry) : (pos.image t).Balanced := by
  have hcarried := carried_image pos t
  refine h.of_same ⟨congrArg Variant.rule hcarried.variant, hcarried.side, hcarried.owed, ?_, ?_,
    fun hmoving => hcarried.phase.trans hmoving, hcarried.inHand⟩ hcarried.phase
  · simp only [Position.image, moved, mapState, rebuild]
  · simp only [Position.image, moved, mapState, rebuild]

/-- Every operation keeps the ledger in order. -/
theorem performed (h : pos.Balanced) (hsound : pos.Sound) (hnext : pos.Performed next) :
    next.Balanced := by
  cases hnext with
  | refused => exact h
  | started => exact h.start
  | reset => exact (clear_reset pos).ledger.balanced
  | put hput => exact h.put hsound hput
  | selected hselect => exact h.select hselect
  | slid hslide => exact h.slide hsound hslide
  | removed hremove => exact h.remove hremove
  | applied happly => exact h.apply hsound happly
  | ended hend => exact endAgainst hend
  | drawn => exact balanced_finish pos _ _
  | settled => exact h.settle hsound
  | chosen hrule => exact ofRule hrule
  | turned t => exact h.image t

end Balanced

/-! ## Every reachable position -/

/-- A position of a rule that counts mills after placing: nobody has closed one, so each side is to
give up one of its own three men. -/
def indebted : Position :=
  (ofVariant (.ofRule { pieceCount := 3, millAction := .countMillsLater })).performAll
    [.put 8, .put 24, .put 10, .put 26, .put 13, .put 29]

variable {rule : Rule}

/-- What is owed in a reachable position is in order. -/
theorem Reachable.balanced (h : Reachable rule pos) : pos.Balanced := by
  induction h with
  | begin hpos => exact Balanced.ofRule hpos
  | perform op hreach ih => exact ih.performed hreach.sound (performed_perform _ op)
  | adopt _ _ hrule ih => exact ih.of_same ⟨hrule, rfl, rfl, rfl, rfl, id, rfl⟩ rfl
  | restore _ _ hrule hnext _ ihEarlier =>
      cases hnext
      exact ihEarlier.of_same ⟨hrule.symm, rfl, rfl, rfl, rfl, id, rfl⟩ rfl

/-- While a game goes on, a removal is expected exactly when the side to move owes one. The other
side owes removals only after placing, when no man is left in either hand. A side takes its own men
only while it owes removals, under a rule that gives them out by the number of mills. So nothing is
owed while a man is to be placed. -/
theorem reachable_owed (h : Reachable rule pos)
    (hphase : pos.state.phase = .placing ∨ pos.state.phase = .moving) :
    (pos.state.action = .remove ↔ pos.state.owed.get pos.state.side ≠ 0) ∧
      (pos.state.owed.get pos.state.side.other ≠ 0 →
        pos.state.phase = .moving ∧ ∀ c, pos.state.inHand.get c = 0) ∧
      (∀ c, pos.state.takesOwn.get c = true →
        pos.state.owed.get c ≠ 0 ∧ pos.rule.millAction = .countMillsLater) ∧
      (pos.state.phase = .placing → pos.state.action = .place →
        ∀ c, pos.state.owed.get c = 0) := by
  have hgoes : pos.state.phase ≠ .finished := by
    rcases hphase with hphase | hphase <;> rw [hphase] <;> decide
  have hledger := h.balanced.ledger hgoes
  refine ⟨(h.sound.stage.turned_of hphase).1.owes, hledger.later, hledger.takesOwn, ?_⟩
  intro _ haction
  exact (hledger.clear_of_action h.sound hgoes (by rw [haction]; decide)).owed_get

/-- The case in which both sides owe a removal among their own men. -/
theorem reachable_owed_own :
    Reachable { pieceCount := 3, millAction := .countMillsLater } indebted ∧
      indebted.state.phase = .moving ∧ indebted.state.owed = .both 1 ∧
      indebted.state.takesOwn = .both true ∧ indebted.state.action = .remove ∧
      ∀ c, indebted.state.inHand.get c = 0 := by
  have hreach : Reachable { pieceCount := 3, millAction := .countMillsLater } indebted :=
    (Reachable.begin rfl).performAll _
  obtain ⟨hmoving, howed, htakesOwn⟩ : indebted.state.phase = .moving ∧
      indebted.state.owed = .both 1 ∧ indebted.state.takesOwn = .both true := by
    decide +kernel
  have howes : ∀ c, indebted.state.owed.get c ≠ 0 := by
    intro c
    rw [howed, PerSide.get_both]
    decide
  obtain ⟨hremove, hhands, _⟩ := reachable_owed hreach (Or.inr hmoving)
  exact ⟨hreach, hmoving, howed, htakesOwn, hremove.2 (howes _), (hhands (howes _)).2⟩

end Morris.Position
