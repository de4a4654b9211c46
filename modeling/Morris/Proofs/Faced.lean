import Morris.Proofs.Blocked
import Morris.Proofs.Value

/-!
# Sides that face men

Only a side with an empty hand may fly, and it has taken several turns to empty that hand. So the
other side has men on the board by then: each of its turns has left one there, and one that has lost
its last man is given the turn at once and places another. The exception is a blocked side that
frees itself by taking the last man of the other side: it keeps the turn, but it was blocked because
it may not fly (`Position.Grounded`).

`Position.Facing` is what play keeps of this while men are in hand, and `PlayedBy.met` the
conclusion: a side that may fly and has men on the board faces some of the other side.
-/

set_option autoImplicit false

namespace Morris.Position

variable {pos next : Position} {c : Side} {p : Point} {r : Nat × Position} {admits : Move → Prop}
  {rule : Rule}

/-! ## Who faces whom -/

/-- The side to move has an empty hand and may not fly. -/
def Grounded (pos : Position) : Prop :=
  pos.state.inHand.get pos.state.side = 0 ∧ pos.canFly pos.state.side = false

/-- A side with men on the board faces some of the other side, unless it may not fly. -/
structure Facing (pos : Position) : Prop where
  mover : pos.state.action ≠ .remove →
    pos.state.onBoard.get pos.state.side = 0 ∨ pos.state.onBoard.get pos.state.side.other ≠ 0 ∨
      pos.Grounded
  /-- Who removes men of the other side has one on the board, and is grounded if that frees it. -/
  remover : pos.state.action = .remove →
    pos.state.onBoard.get pos.state.side ≠ 0 ∧ pos.state.takesOwn.get pos.state.side = false ∧
      (pos.state.freesMover = true → pos.Grounded)

/-- The game is over, or no man is left to place, or the sides face each other. -/
def Faced (pos : Position) : Prop :=
  pos.state.phase = .finished ∨ pos.HandsEmpty ∨ pos.Facing

theorem Facing.faced (h : pos.Facing) : pos.Faced := Or.inr (Or.inr h)

theorem HandsEmpty.faced (h : pos.HandsEmpty) : pos.Faced := Or.inr (Or.inl h)

theorem faced_finish (pos : Position) (winner : Colour) (ending : Ending) :
    (pos.finish winner ending).Faced := Or.inl rfl

theorem HandsEmpty.of_inHand (h : pos.HandsEmpty) (hhand : next.state.inHand = pos.state.inHand) :
    next.HandsEmpty := by
  rw [HandsEmpty, hhand]
  exact h

/-- Nothing but the rule, the side to move, its men and the hands matters. -/
theorem Grounded.of_same (h : pos.Grounded) (hrule : next.rule = pos.rule)
    (hside : next.state.side = pos.state.side)
    (hmen : next.state.onBoard.get pos.state.side = pos.state.onBoard.get pos.state.side)
    (hhand : next.state.inHand = pos.state.inHand) : next.Grounded := by
  rw [Grounded, canFly, hside, hrule, hmen, hhand]
  exact h

/-- Nothing but the men, the hands and the turn matters. -/
theorem Facing.of_sameTurn (h : pos.Facing) (hsame : pos.SameTurn next) : next.Facing := by
  have hgrounded : pos.Grounded → next.Grounded := fun hgrounded =>
    hgrounded.of_same hsame.rule hsame.side (by rw [hsame.layout]) (by rw [hsame.layout])
  constructor
  case mover =>
    rw [hsame.action, hsame.side, hsame.layout]
    exact fun haction => (h.mover haction).imp_right fun hmet => hmet.imp_right hgrounded
  case remover =>
    rw [hsame.action, hsame.side, hsame.layout, hsame.takesOwn, hsame.frees]
    intro haction
    obtain ⟨hman, hown, hfrees⟩ := h.remover haction
    exact ⟨hman, hown, fun htrue => hgrounded (hfrees htrue)⟩

/-! ## Changes of turn -/

/-- A side that owes nothing and faces men can be given the turn. -/
theorem facing_giveTurn (howed : pos.state.owed.get c = 0)
    (hmen : pos.state.onBoard.get c.other ≠ 0) : (pos.giveTurn c).Facing where
  mover _ := Or.inr (Or.inl hmen)
  remover hremove := by
    have howes := (turned_giveTurn pos c).owes.1 hremove
    exact absurd howed howes

/-- The turn can be passed on by a side with men on the board. -/
theorem facing_passTurn (howed : pos.state.owed.get pos.state.side.other = 0)
    (hmen : pos.state.onBoard.get pos.state.side ≠ 0) : pos.passTurn.Facing := by
  apply facing_giveTurn howed
  rw [Side.other_other]
  exact hmen

theorem Clear.turnToRemoval_eq (h : pos.Clear) : pos.turnToRemoval = pos :=
  turnToRemoval_eq_self fun howes => absurd (h.owed_get _) howes

theorem owes_oweFreeing (pos : Position) :
    pos.oweFreeing.state.owed.get pos.oweFreeing.state.side ≠ 0 := by
  show (pos.state.owed.set pos.state.side 1).get pos.state.side ≠ 0
  rw [PerSide.get_set_self]
  exact Nat.one_ne_zero

/-- Settling keeps the sides facing each other: a blocked side that is to remove a man is grounded.
-/
theorem Facing.settle (h : pos.Facing) (hcons : pos.Consistent) (hclear : pos.Clear)
    (hemptied : pos.Emptied) : pos.settle.Faced := by
  have hsettling := settling_settle pos
  generalize pos.settle = next at hsettling
  cases hsettling with
  | idle _ => exact h.faced
  | finished winner ending => exact faced_finish pos winner ending
  | passed hstuck =>
      have hmen := hcons.two_le_onBoard (hstuck.unbeaten _) (hemptied hstuck.moving)
      have hpassed : pos.passTurn.Clear := hclear.giveTurn _
      rw [hpassed.turnToRemoval_eq]
      exact (facing_passTurn (hclear.owed_get _) (by omega)).faced
  | freed frees hstuck hwhy =>
      have hhand := hemptied hstuck.moving
      have hmen := hcons.two_le_onBoard (hstuck.unbeaten _) hhand
      have hsame := (Settling.freed frees hstuck hwhy).sameMen
      -- a side is blocked although it may fly only where the board is full
      rcases not_canFly_of_isBlocked hstuck.blocked with hfull | hwalks
      · have hhands := hcons.handsEmpty_of_full hfull
        exact (hhands.of_inHand (by rw [hsame.layout])).faced
      · rw [turnToRemoval, if_neg (owes_oweFreeing _)]
        refine Facing.faced ⟨fun hnot => absurd rfl hnot, fun _ => ⟨?_, ?_, ?_⟩⟩
        · show pos.state.onBoard.get pos.state.side ≠ 0
          omega
        · show pos.state.takesOwn.get pos.state.side = false
          rw [hclear.takesOwn, PerSide.get_both]
        · exact fun _ => ⟨hhand, hwalks⟩
  | kept _ _ =>
      rw [hclear.turnToRemoval_eq]
      exact h.faced

/-- What is owed or done where no man is left to place does not matter. -/
theorem HandsEmpty.faced_settle (h : pos.HandsEmpty) : pos.settle.Faced :=
  (h.of_inHand (by rw [(sameMen_settle pos).layout])).faced

/-- The turn passes from a side with men to one that faces them. -/
theorem Clear.faced_settle_passTurn (h : pos.Clear) (hcons : pos.Consistent)
    (hmen : pos.state.onBoard.get pos.state.side ≠ 0) : pos.passTurn.settle.Faced :=
  (facing_passTurn (h.owed_get _) hmen).settle (hcons.giveTurn _) (h.giveTurn _)
    (emptied_giveTurn _ _)

theorem handsEmpty_of_placingEnd (hagrees : pos.state.Agrees) (hdone : pos.isPlacingDone = true)
    (h : pos.PlacingEnd next) : next.HandsEmpty := by
  have hhands : pos.HandsEmpty := hands_of_isPlacingDone hdone
  exact hhands.of_inHand (h.lifts hagrees).inHand

/-! ## After a placement or a slide -/

theorem Clear.faced_endPlacingOrPass (h : pos.Clear) (hcons : pos.Consistent)
    (hmen : pos.state.onBoard.get pos.state.side ≠ 0) : pos.endPlacingOrPass.settle.Faced := by
  rcases endPlacingOrPass_cases pos with ⟨hdone, hend⟩ | hpass
  · exact (handsEmpty_of_placingEnd hcons.agrees hdone hend).faced_settle
  · rw [hpass]
    exact h.faced_settle_passTurn hcons hmen

/-- A side that has closed a mill removes men of the other side. -/
theorem Clear.facing_of_remove (h : pos.Clear) (haction : next.state.action = .remove)
    (hside : next.state.side = pos.state.side) (hmen : next.state.onBoard = pos.state.onBoard)
    (htakes : next.state.takesOwn = pos.state.takesOwn)
    (hfrees : next.state.freesMover = pos.state.freesMover)
    (hman : pos.state.onBoard.get pos.state.side ≠ 0) : next.Facing where
  mover hnot := absurd haction hnot
  remover _ := by
    rw [hside, hmen, htakes, hfrees, h.takesOwn, h.frees, PerSide.get_both]
    exact ⟨hman, rfl, nofun⟩

/-- A side with men on the board that has earned removals faces the other. -/
theorem Clear.faced_oweRemovals (h : pos.Clear) (hman : pos.state.onBoard.get pos.state.side ≠ 0)
    (n : Nat) : (pos.oweRemovals n).Faced := by
  have howes : (pos.oweRemovals n).Facing := h.facing_of_remove rfl rfl rfl rfl rfl hman
  exact howes.faced

theorem Clear.faced_takeFromHand (h : pos.Clear) (hcons : pos.Consistent)
    (hphase : pos.state.phase = .placing) (haction : pos.state.action = .place)
    (hman : pos.state.onBoard.get pos.state.side ≠ 0)
    (hmet : pos.state.onBoard.get pos.state.side.other ≠ 0) (n : Nat) :
    (pos.takeFromHand n).Faced := by
  have hraided := hcons.raidHand n
  simp only [takeFromHand]
  -- the branches are those of `takeFromHand`: short, at the end of placing, passed, kept
  split
  · have hshort : ((pos.raidHand n).mapState fun s => { s with action := .remove }).Facing :=
      h.facing_of_remove rfl rfl rfl rfl rfl hman
    exact hshort.faced
  · rename_i henough
    have hclear := h.raidHand (Nat.le_of_not_lt henough)
    split
    · rename_i ended hended
      obtain ⟨hdone, hend⟩ := placingEnd_of_endPlacing hended
      exact (handsEmpty_of_placingEnd hraided.agrees hdone hend).faced_settle
    · split
      · exact hclear.faced_settle_passTurn hraided hman
      · have hfacing : (pos.raidHand n).Facing := by
          refine ⟨fun _ => Or.inr (Or.inl hmet), fun hremove => ?_⟩
          cases haction.symm.trans hremove
        refine hfacing.settle hraided hclear (emptied_of_phase ?_)
        rw [show (pos.raidHand n).state.phase = .placing from hphase]
        decide

/-- What follows a placement keeps the sides facing each other. -/
theorem Clear.faced_afterDrop (h : pos.Clear) (hcons : pos.Consistent)
    (hphase : pos.state.phase = .placing) (haction : pos.state.action = .place)
    (hman : pos.state.onBoard.get pos.state.side ≠ 0) (n : Nat)
    (hmet : n ≠ 0 → pos.state.onBoard.get pos.state.side.other ≠ 0) : (pos.afterDrop n).Faced := by
  simp only [afterDrop]
  split
  · exact h.faced_endPlacingOrPass hcons hman
  · split
    · split
      · rename_i hfull
        simp only [Bool.and_eq_true, decide_eq_true_eq] at hfull
        -- a full board leaves no man to place
        have hhands := hcons.handsEmpty_of_full hfull.2
        exact (hhands.of_inHand (by rw [(sameMen_resolveFullBoard pos).layout])).faced
      · exact h.faced_endPlacingOrPass hcons hman
    · rename_i hn
      split
      · exact h.faced_takeFromHand hcons hphase haction hman (hmet hn) _
      · exact h.faced_takeFromHand hcons hphase haction hman (hmet hn) _
      · exact h.faced_oweRemovals hman _

/-- A man that closes a mill is not the only one of its side. -/
theorem Consistent.onBoard_ne_zero_of_mill (h : pos.Consistent) (hp : Point.onBoard p = true)
    (hfree : pos.contentAt p = .empty) (hhand : pos.state.inHand.get pos.state.side ≠ 0)
    (hn : ((pos.drop p).scoreMills p pos.state.side).1 ≠ 0) :
    pos.state.onBoard.get pos.state.side ≠ 0 := by
  have hdropped := h.drop hp hfree hhand
  obtain ⟨pair, hpair, hcovers⟩ :=
    exists_partners_of_scoreMills p (contentAt_drop_self pos hp) hn
  obtain ⟨hnot, _, q, hq, _⟩ := Board.partners_spec hp hpair
  have hne : q ≠ p := by
    rintro rfl
    rw [hnot] at hq
    cases hq
  have hman := (hdropped.agrees.men _ q).1 ((Bitboard.covers_iff.1 hcovers).2 q hq)
  -- a partner of the point in the mill is another point, so its man was there before
  have hold : pos.contentAt q = pos.state.side.man := by
    have hsame := contentAt_drop pos hp q
    rw [if_neg hne] at hsame
    rw [← hsame]
    exact hman
  exact h.onBoard_ne_zero hold

/-- A placement keeps the sides facing each other. -/
theorem Facing.faced_placeMan (h : pos.Facing) (hcons : pos.Consistent) (hclear : pos.Clear)
    (hphase : pos.state.phase = .placing) (haction : pos.state.action = .place)
    (hp : Point.onBoard p = true) (hfree : pos.contentAt p = .empty)
    (hhand : pos.state.inHand.get pos.state.side ≠ 0) : (pos.placeMan p).2.Faced := by
  obtain ⟨n, closed, hscored, heq, hsame, hclosed⟩ := hcons.placeMan_spec hp hfree hhand
  have honBoard : closed.state.onBoard = pos.state.onBoard.update pos.state.side (· + 1) := by
    rw [hsame.layout]
    rfl
  have hside : closed.state.side = pos.state.side := hsame.side
  rw [heq]
  refine ((hclear.drop p).of_sameTurn hsame).faced_afterDrop hclosed (hsame.phase.trans hphase)
    (hsame.action.trans haction) ?_ n fun hn => ?_
  · rw [honBoard, hside, PerSide.get_update, if_pos rfl]
    exact Nat.succ_ne_zero _
  · -- the mill needs men that were there before, and they face some of the other side
    rw [honBoard, hside, PerSide.get_update, if_neg (Side.other_ne _)]
    have hmill : ((pos.drop p).scoreMills p pos.state.side).1 ≠ 0 := by
      rw [hscored]
      exact hn
    have hmen := hcons.onBoard_ne_zero_of_mill hp hfree hhand hmill
    rcases h.mover (by rw [haction]; decide) with hnone | hmet | hgrounded
    · exact absurd hnone hmen
    · exact hmet
    · exact absurd hgrounded.1 hhand

/-- A slide keeps the sides facing each other. -/
theorem Clear.faced_slideMan (h : pos.Clear) (hcons : pos.Consistent) {a b : Point}
    (hb : Point.onBoard b = true) (hslide : pos.Slidable a b) : (pos.slideMan a b).2.Faced := by
  obtain ⟨n, closed, opened, _, heq, hsame, hclosed⟩ := hcons.slideMan_spec hb hslide
  have hclear := (h.shift a b).of_sameTurn hsame
  have hman : closed.state.onBoard.get closed.state.side ≠ 0 := by
    rw [hsame.layout, hsame.side]
    exact hcons.onBoard_ne_zero hslide.man
  have hremember := sameTurn_remember closed
  have hafter := afterShift_cases closed a b opened n
  rw [heq]
  -- what is remembered of the slide matters to neither case
  generalize closed.afterShift a b opened n = next at hafter
  cases hafter with
  | calm slid =>
      have hremembered := hclosed.of_sameMen (hremember slid).toSameMen
        ((hremember slid).keyExact hclosed.key)
      exact (hclear.of_sameTurn (hremember slid)).faced_settle_passTurn hremembered hman
  | @owed k slid _ => exact (hclear.of_sameTurn (hremember slid)).faced_oweRemovals hman k

/-! ## After a removal -/

theorem Consistent.afterRemovals (h : pos.Consistent) : pos.afterRemovals.Consistent := by
  have hremovals := afterRemovals_cases pos
  obtain ⟨hlifts, hmarks⟩ := (hremovals.lifts h.agrees).1
  exact h.of_aftermath (hlifts.aftermath hmarks) (hremovals.keyExact h.agrees h.key)

/-- A side that has made its last removal hands the turn on, or keeps it if that has freed it. -/
theorem Facing.afterRemovals (h : pos.Facing) (hcons : pos.Consistent) (hpaid : pos.Paid)
    (haction : pos.state.action = .remove) :
    pos.afterRemovals.HandsEmpty ∨ pos.afterRemovals.Facing := by
  obtain ⟨hman, _, hfrees⟩ := h.remover haction
  simp only [Position.afterRemovals]
  split
  · rename_i ended hended
    obtain ⟨hdone, hend⟩ := placingEnd_of_endPlacing hended
    exact Or.inl (handsEmpty_of_placingEnd hcons.agrees hdone hend)
  · split
    · rename_i hfreed
      -- the side that freed itself was grounded and is so still
      have hgrounded : (pos.mapState fun s => { s with freesMover := false }).keepTurn.Grounded :=
        (hfrees hfreed).of_same rfl rfl rfl rfl
      have hnot : (pos.mapState fun s => { s with freesMover := false }).keepTurn.state.action ≠
          .remove := fun hremove => (turned_giveTurn _ _).owes.1 hremove hpaid.owed
      exact Or.inr ⟨fun _ => Or.inr (Or.inr hgrounded), fun hremove => absurd hremove hnot⟩
    · by_cases hother : pos.state.owed.get pos.state.side.other = 0
      · exact Or.inr (facing_passTurn hother hman)
      · -- the other side owes removals only when no man is left to place
        exact Or.inl ((hpaid.later hother).2.of_inHand rfl)

theorem Facing.faced_afterTaking (h : pos.Facing) (hcons : pos.Consistent) {target : Side}
    (hpaid : pos.state.owed.get pos.state.side = 0 → pos.Paid)
    (haction : pos.state.action = .remove) : (pos.afterTaking target).Faced := by
  simp only [afterTaking]
  split
  · exact faced_finish pos _ _
  · split
    · exact h.faced
    · rename_i hzero
      have hpaid := hpaid (Decidable.not_not.1 hzero)
      -- the last removal is made, and the position is settled or not
      rcases h.afterRemovals hcons hpaid haction with hhands | hfacing
      · split
        · exact hhands.faced_settle
        · exact hhands.faced
      · split
        · rename_i hidle
          have hclear := hpaid.ledger_afterRemovals.clear hidle.1
          exact hfacing.settle hcons.afterRemovals hclear fun _ => hidle.2
        · exact hfacing.faced

theorem Facing.takeMan (h : pos.Facing) (hcons : pos.Consistent) (hremovable : pos.Removable p) :
    (pos.takeMan p pos.removalTarget).Facing := by
  obtain ⟨hman, hown, hfrees⟩ := h.remover hremovable.action
  have hframe := takeMan_frame pos p pos.removalTarget
  -- the men of the side to move stay
  have hsame : (pos.takeMan p pos.removalTarget).state.onBoard.get pos.state.side =
      pos.state.onBoard.get pos.state.side := by
    have htarget : pos.removalTarget = pos.state.side.other := by
      rw [removalTarget, hown]
      rfl
    have hother := (onBoard_takeMan hcons hremovable.man).2
    rwa [htarget, Side.other_other, ← htarget] at hother
  constructor
  case mover => exact fun hnot => absurd (hframe.action.trans hremovable.action) hnot
  case remover =>
    rw [hframe.side, hframe.frees, hsame, hframe.takesOwn]
    refine fun _ => ⟨hman, ?_, fun hfreed => ?_⟩
    · split
      · exact PerSide.get_set_self _ _ _
      · exact hown
    · exact (hfrees hfreed).of_same hframe.rule hframe.side hsame hframe.inHand

/-- A removal keeps the sides facing each other, except where no man is left to place. -/
theorem Facing.faced_removeMan (h : pos.Facing) (hcons : pos.Consistent) (hledger : pos.Ledger)
    (hremovable : pos.Removable p) :
    ((pos.takeMan p pos.removalTarget).afterTaking pos.removalTarget).Faced := by
  have hframe := takeMan_frame pos p pos.removalTarget
  exact (h.takeMan hcons hremovable).faced_afterTaking (hcons.takeMan hremovable.man)
    (hledger.taken hframe).2 (hframe.action.trans hremovable.action)

/-! ## Games of accepted moves -/

/-- No move puts a man into a hand. -/
theorem HandsEmpty.step (h : pos.HandsEmpty) (hsound : pos.Sound) {m : Move}
    (hstep : pos.Step m r) : r.2.HandsEmpty := by
  cases hstep with
  | down _ hdown =>
      cases hdown with
      | placed _ _ _ hhand => exact absurd (h _) hhand
      | held s _ _ _ _ => exact h
      | @slid a _ _ hp hslide =>
          exact h.of_inHand (slid_slideMan hsound.toConsistent hslide hp).inHand
  | removed _ hremovable =>
      exact h.of_inHand (removed_takeMan hsound.toConsistent hremovable.man).inHand

/-- One step of a sound position keeps the sides facing each other. -/
theorem Facing.step (h : pos.Facing) (hsound : pos.Sound) (hbalanced : pos.Balanced) {m : Move}
    (hstep : pos.Step m r) : r.2.Faced := by
  have hclear (hgoes : pos.state.phase ≠ .finished) (haction : pos.state.action ≠ .remove) :
      pos.Clear := (hbalanced.ledger hgoes).clear_of_action hsound hgoes haction
  cases hstep with
  | down _ hdown =>
      obtain ⟨haction, hgoes⟩ := hsound.idle_of_setDown hdown
      cases hdown with
      | placed hphase hp hfree hhand =>
          have hbegun := hsound.begun (hphase.imp_right And.left)
          have hfacing : pos.begun.Facing := ⟨h.mover, h.remover⟩
          exact hfacing.faced_placeMan hbegun.toConsistent (hclear hgoes haction).begun rfl
            (hsound.asked_to_place hphase).1 hp hfree hhand
      -- a man that is only picked up or dropped leaves the turn
      | held s _ _ _ _ => exact Facing.faced ⟨h.mover, h.remover⟩
      | slid _ _ hp hslide =>
          exact (hclear hgoes haction).faced_slideMan hsound.toConsistent hp hslide
  | removed _ hremovable =>
      exact h.faced_removeMan hsound.toConsistent (hbalanced.ledger hremovable.goes) hremovable

theorem Faced.log (h : pos.Faced) (m : Move) : (pos.log m).Faced := by
  rcases h with hover | hhands | hfacing
  · exact Or.inl hover
  · exact Or.inr (Or.inl hhands)
  · exact (hfacing.of_sameTurn (sameTurn_log pos m)).faced

theorem Faced.step (h : pos.Faced) (hsound : pos.Sound) (hbalanced : pos.Balanced) {m : Move}
    (hnext : pos.apply m = .ok next) : next.Faced := by
  obtain ⟨r, hstep, rfl⟩ := hsound.exists_step hnext
  rcases h with hover | hhands | hfacing
  · obtain ⟨refusal, hrefused⟩ := apply_of_finished hover m
    rw [hrefused] at hnext
    cases hnext
  · exact (hhands.step hsound hstep).faced.log m
  · exact (hfacing.step hsound hbalanced hstep).log m

/-- In every position of a game the sides face each other, unless it is over or no man is left to
place. -/
theorem PlayedBy.faced (h : PlayedBy admits rule pos) : pos.Faced := by
  induction h with
  | begin hbegin =>
      obtain ⟨v, _, rfl⟩ := map_eq_ok_iff.1 hbegin
      exact Facing.faced ⟨fun _ => Or.inl rfl, nofun⟩
  | move hplayed _ hnext ih => exact ih.step hplayed.sound hplayed.reachable.balanced hnext

/-- A side that may fly and has men on the board faces some of the other side. -/
theorem PlayedBy.met (h : PlayedBy admits rule pos) (hgoes : pos.state.phase ≠ .finished)
    (haction : pos.state.action ≠ .remove) (hfly : pos.canFly pos.state.side = true) :
    pos.state.onBoard.get pos.state.side = 0 ∨ pos.state.onBoard.get pos.state.side.other ≠ 0 := by
  rcases h.faced with hover | hhands | hfacing
  · exact absurd hover hgoes
  · exact Or.inr (h.sound.men_of_handsEmpty (h.unbeaten hgoes (Or.inr haction)) hhands _)
  · rcases hfacing.mover haction with hnone | hmet | hgrounded
    · exact Or.inl hnone
    · exact Or.inr hmet
    · cases hgrounded.2.symm.trans hfly

end Morris.Position
