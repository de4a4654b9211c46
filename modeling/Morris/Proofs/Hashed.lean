import Mathlib.Tactic.MkIffOfInductiveProp
import Morris.Proofs.Accepted
import Morris.Proofs.Owed

/-!
# What the key tells of the legal moves

The key is made of what stands on the board, the side to move and the removals that it owes
(`Position.SameHashed`). The moves of a position depend on a little more: on whether placing is over
and which hands are empty, and, where repeated mills are restricted, on the last mill of the side to
move and the lines it has scored with (`Position.SameUnhashed`). Two positions of the same rule that
agree in both have the same legal moves in the same order (`Position.playedBy_legalMoves_eq`),
whatever the games that led there; two with the same key alone need not.

Hands, counters and records differ between such positions, and so may the flag of a removal that
frees a blocked side. The flag says nothing new: it stands only while the side to move is blocked
and owes exactly that removal (`Position.Excused`), so it can be told from the board.
-/

set_option autoImplicit false

namespace Morris

theorem Side.forall_iff {holds : Side → Prop} : (∀ c, holds c) ↔ holds .white ∧ holds .black :=
  ⟨fun h => ⟨h .white, h .black⟩, fun h c => by cases c; exacts [h.1, h.2]⟩

instance Side.decidableForall (holds : Side → Prop) [∀ c, Decidable (holds c)] :
    Decidable (∀ c, holds c) :=
  decidable_of_iff _ Side.forall_iff.symm

namespace Position

variable {pos next : Position}

/-! ## The flag of a freeing removal -/

/-- If the owed removal is one that frees the mover, it is a single one, and the mover is blocked.
-/
def Excused (pos : Position) : Prop :=
  pos.state.phase ≠ .finished → pos.state.freesMover = true →
    pos.state.owed.get pos.state.side = 1 ∧ pos.isBlocked pos.state.side = true

/-- Where no removal frees the mover, nothing is claimed. -/
theorem excused_of_frees (h : pos.state.freesMover = false) : pos.Excused := by
  intro _ htrue
  rw [h] at htrue
  cases htrue

theorem Excused.of_sameTurn (h : pos.Excused) (hsame : pos.SameTurn next) : next.Excused := by
  intro hgoes hfrees
  rw [hsame.phase] at hgoes
  rw [hsame.frees] at hfrees
  rw [hsame.owed, hsame.side, hsame.isBlocked]
  exact h hgoes hfrees

theorem frees_turnToRemoval (pos : Position) :
    pos.turnToRemoval.state.freesMover = pos.state.freesMover := by
  rw [turnToRemoval]
  split <;> rfl

/-- The flag is set for a blocked side that comes to owe one removal, and for no other. -/
theorem Settling.excused (h : pos.Settling next) (hfrees : pos.state.freesMover = false) :
    next.Excused := by
  cases h with
  | idle _ => exact excused_of_frees hfrees
  | finished winner ending => exact fun hgoes => absurd rfl hgoes
  | passed _ => exact excused_of_frees ((frees_turnToRemoval _).trans hfrees)
  | kept _ _ => exact excused_of_frees ((frees_turnToRemoval _).trans hfrees)
  | freed frees hstuck _ =>
      intro _ _
      have howes : (pos.mapState fun s => { s with freesMover := frees }).oweFreeing.state.owed.get
          pos.state.side = 1 := PerSide.get_set_self _ _ _
      rw [turnToRemoval]
      split
      · exact ⟨howes, hstuck.blocked⟩
      · exact ⟨howes, hstuck.blocked⟩

/-- Settling leaves a removal that frees the mover only to a blocked side. -/
theorem excused_settle (hfrees : pos.state.freesMover = false) : pos.settle.Excused :=
  (settling_settle pos).excused hfrees

theorem frees_clearMarks (pos : Position) :
    pos.clearMarks.state.freesMover = pos.state.freesMover := by
  have hfold : ∀ (ps : List Point) (q : Position),
      (ps.foldl vacate q).state.freesMover = q.state.freesMover := by
    intro ps
    induction ps with
    | nil => exact fun q => rfl
    | cons p ps ih => exact fun q => ih (q.vacate p)
  exact hfold _ pos

theorem PlacingEnd.frees (h : pos.PlacingEnd next) :
    next.state.freesMover = pos.state.freesMover := by
  cases h with
  | lifted _ => exact frees_clearMarks pos
  | counted _ => rfl
  | plain _ _ => rfl

theorem Raid.excused (h : pos.Raid next) (hfrees : pos.state.freesMover = false) :
    next.Excused := by
  cases h with
  | owed _ => exact excused_of_frees hfrees
  | ended _ hend => exact excused_settle (hend.frees.trans hfrees)
  | passed => exact excused_settle hfrees
  | kept => exact excused_settle hfrees

/-- What follows a placement leaves a removal that frees the mover only to a blocked side. -/
theorem AfterDrop.excused (h : pos.AfterDrop next) (hfrees : pos.state.freesMover = false) :
    next.Excused := by
  cases h with
  | calm =>
      apply excused_settle
      rcases endPlacingOrPass_cases pos with ⟨_, hend⟩ | hpass
      · exact hend.frees.trans hfrees
      · rw [hpass]
        exact hfrees
  | full =>
      apply excused_of_frees
      simp only [resolveFullBoard]
      split <;> exact hfrees
  | raid n => exact (raid_takeFromHand pos n).excused hfrees
  | owed _ => exact excused_of_frees hfrees

/-- What follows a slide leaves a removal that frees the mover only to a blocked side. -/
theorem AfterShift.excused (h : pos.AfterShift next) (hfrees : pos.state.freesMover = false) :
    next.Excused := by
  cases h with
  | calm slid => exact excused_settle hfrees
  | owed slid _ => exact excused_of_frees hfrees

/-- Once the last owed removal is made the flag is taken back. -/
theorem Paid.frees_afterRemovals (h : pos.Paid) : pos.afterRemovals.state.freesMover = false := by
  simp only [afterRemovals]
  split
  · rename_i ended hended
    obtain ⟨hdone, hend⟩ := placingEnd_of_endPlacing hended
    have hplacing : pos.state.phase = .placing := by
      simp only [isPlacingDone, Bool.and_eq_true, beq_iff_eq] at hdone
      exact hdone.1.1.1.1
    -- a removal that frees the mover is made after placing
    rw [hend.frees]
    apply eq_false_of_ne_true
    intro htrue
    cases hplacing.symm.trans (h.frees htrue).1
  · split
    · rfl
    · exact eq_false_of_ne_true ‹_›

/-- What follows a removal leaves another that frees the mover only to a blocked side. -/
theorem Ledger.excused_afterTaking {target : Side} (h : pos.Ledger) (hexcused : pos.Excused)
    (hgoes : pos.state.phase ≠ .finished) (hframe : pos.TakeFrame target next) (loser : Side) :
    (next.afterTaking loser).Excused := by
  simp only [afterTaking]
  split
  · exact fun hgoes => absurd rfl hgoes
  · split
    · rename_i howes
      -- a removal that frees the mover is the only one, so no other is owed after it
      apply excused_of_frees
      apply eq_false_of_ne_true
      intro hfrees
      rw [hframe.frees] at hfrees
      rw [hframe.owed, hframe.side, PerSide.get_set_self, (hexcused hgoes hfrees).1] at howes
      exact howes rfl
    · rename_i hzero
      have hfrees := ((h.taken hframe).2 (Decidable.not_not.1 hzero)).frees_afterRemovals
      split
      · exact excused_settle hfrees
      · exact excused_of_frees hfrees

theorem excused_placeMan (hfrees : pos.state.freesMover = false) (p : Point) :
    (pos.placeMan p).2.Excused := by
  obtain ⟨n, hn⟩ := placeMan_snd pos p
  rw [hn]
  exact (afterDrop_cases _ n).excused ((sameTurn_scoreMills _ p _).frees.trans hfrees)

theorem excused_slideMan (hfrees : pos.state.freesMover = false) (a b : Point) :
    (pos.slideMan a b).2.Excused := by
  obtain ⟨opened, n, hn⟩ := slideMan_snd pos a b
  rw [hn]
  exact (afterShift_cases _ a b opened n).excused ((sameTurn_scoreMills _ b _).frees.trans hfrees)

theorem Excused.putting (h : pos.Excused) (hbalanced : pos.Balanced) (hsound : pos.Sound)
    {p : Point} (hput : pos.Putting p next) : next.Excused := by
  have hclear (hgoes : pos.state.phase ≠ .finished) (haction : pos.state.action ≠ .remove) :
      pos.state.freesMover = false :=
    ((hbalanced.ledger hgoes).clear_of_action hsound hgoes haction).frees
  cases hput with
  | placed hphase _ _ _ =>
      rw [start_of_placing (hphase.imp_right And.left)]
      apply excused_placeMan
      rcases hphase with hready | ⟨hplacing, hplace, _⟩
      · have haction := (hsound.stage.untouched_of_ready hready).action
        exact hclear (by rw [hready]; decide) (by rw [haction]; decide)
      · exact hclear (by rw [hplacing]; decide) (by rw [hplace]; decide)
  | picked _ _ _ _ => exact h
  | slid hphase haction _ _ _ =>
      apply excused_slideMan
      apply hclear
      · rcases hphase with hphase | hphase <;> rw [hphase] <;> decide
      · rw [haction]
        decide

/-- A move keeps the flag of a freeing removal in order. -/
theorem Excused.apply (h : pos.Excused) (hbalanced : pos.Balanced) (hsound : pos.Sound) {m : Move}
    (hnext : pos.apply m = .ok next) : next.Excused := by
  obtain ⟨played, hplayed, rfl⟩ := apply_ok_iff.1 hnext
  have hexcused : played.Excused := by
    cases hplayed with
    | placed _ hput =>
        have hsame := sameTurn_release pos
        have hreleased := hsound.of_sameTurn hsame
        exact (h.of_sameTurn hsame).putting (hbalanced.of_sameTurn hsame) hreleased
          (hreleased.put_cases hput)
    | slid _ hslide =>
        obtain ⟨picked, hselect, hput⟩ := bind_eq_ok_iff.1 hslide
        have hpicked := hsound.select hselect
        have hbalanced' := hbalanced.select hselect
        have hputting := hpicked.put_cases hput
        -- picking a man up touches neither the flag nor what is owed
        obtain ⟨_, _, _, _, rfl⟩ := select_ok_iff.1 hselect
        have hexcused : (pos.pick m.origin).Excused := h
        exact hexcused.putting hbalanced' hpicked hputting
    | removed _ hremove =>
        obtain ⟨hremovable, rfl⟩ := remove_ok_iff.1 hremove
        have hgoes : pos.state.phase ≠ .finished := by
          rcases hremovable.inProgress with hphase | hphase <;> rw [hphase] <;> decide
        exact (hbalanced.ledger hgoes).excused_afterTaking h hgoes
          (takeMan_frame pos _ pos.removalTarget) _
  exact hexcused.of_sameTurn (sameTurn_log played m)

/-- In every position of a game, a removal that frees the mover is a single one, owed by a blocked
side. -/
theorem PlayedBy.excused {admits : Move → Prop} {rule : Rule} (h : PlayedBy admits rule pos) :
    pos.Excused := by
  induction h with
  | begin hbegin =>
      obtain ⟨v, _, rfl⟩ := map_eq_ok_iff.1 hbegin
      exact excused_of_frees rfl
  | move hplayed _ hnext ih => exact ih.apply hplayed.reachable.balanced hplayed.sound hnext

/-- Whether a removal is a freeing one can be told without the flag. -/
theorem Excused.isFreeingRemoval_eq (h : pos.Excused) (hgoes : pos.state.phase ≠ .finished) :
    pos.isFreeingRemoval = (pos.isFullBoardRemoval ||
      (pos.rule.stalemateAction.removes && pos.isBlocked pos.state.side)) := by
  rw [isFreeingRemoval]
  cases hfrees : pos.state.freesMover with
  | false => rw [Bool.false_or]
  | true => rw [(h hgoes hfrees).2, Bool.or_true]

/-! ## What the key is made of -/

/-- What the key is made of is the same: what stands on the board, the side to move, and the
removals that it owes, its own men or the other side's. -/
@[mk_iff] structure SameHashed (pos q : Position) : Prop where
  content : ∀ p ∈ Point.all, q.contentAt p = pos.contentAt p
  side : q.state.side = pos.state.side
  owed : q.state.owed.get q.state.side = pos.state.owed.get pos.state.side
  takesOwn : q.state.takesOwn.get q.state.side = pos.state.takesOwn.get pos.state.side

/-- What the legal moves depend on besides is the same: whether placing is over, which hands are
empty, and, under the rules that look at them, the last mill of the side to move and the lines it
has scored with. -/
@[mk_iff] structure SameUnhashed (pos q : Position) : Prop where
  moving : q.state.phase = .moving ↔ pos.state.phase = .moving
  hands : ∀ c, q.state.inHand.get c = 0 ↔ pos.state.inHand.get c = 0
  lastMill : pos.rule.restrictRepeatedMills = true →
    q.state.lastMill.get pos.state.side = pos.state.lastMill.get pos.state.side
  usedLines : pos.rule.restrictRepeatedMills = true → pos.rule.oneTimeMills = true →
    q.state.usedLines.get pos.state.side = pos.state.usedLines.get pos.state.side

instance (pos q : Position) : Decidable (pos.SameHashed q) :=
  decidable_of_iff _ (sameHashed_iff pos q).symm

instance (pos q : Position) : Decidable (pos.SameUnhashed q) :=
  decidable_of_iff _ (sameUnhashed_iff pos q).symm

/-! ## What the board and the side to move tell -/

/-- The boards are the same in every form, and so is the side to move. -/
structure SameBoard (pos q : Position) : Prop where
  variant : q.variant = pos.variant
  content : ∀ p, q.contentAt p = pos.contentAt p
  men : ∀ c, q.men c = pos.men c
  occupied : q.occupied = pos.occupied
  onBoard : q.state.onBoard = pos.state.onBoard
  side : q.state.side = pos.state.side

/-- What the key is made of decides the boards in all their forms. -/
theorem SameHashed.sameBoard {q : Position} (h : pos.SameHashed q) (hpos : pos.Consistent)
    (hq : q.Consistent) (hvariant : q.variant = pos.variant) : pos.SameBoard q := by
  have hcontent : ∀ p, q.contentAt p = pos.contentAt p := by
    intro p
    cases hp : Point.onBoard p with
    | true => exact h.content p ((Point.mem_all p).2 hp)
    | false => exact (hq.agrees.outside p hp).trans (hpos.agrees.outside p hp).symm
  obtain ⟨_, hmen, _, hoccupied⟩ := hq.agrees.eq_of_content hpos.agrees hcontent
  refine ⟨hvariant, hcontent, fun c => ?_, hoccupied, PerSide.eq_of_get fun c => ?_, h.side⟩
  · rw [men, men, hmen]
  · rw [hq.count, hpos.count, funext hcontent]

namespace SameBoard

variable {q : Position} (h : pos.SameBoard q)
include h

theorem rule : q.rule = pos.rule := congrArg Variant.rule h.variant

theorem linesWithin (p : Point) (owned : Bitboard) :
    q.linesWithin p owned = pos.linesWithin p owned := by
  rw [Position.linesWithin, Position.linesWithin, h.rule]

theorem colourAt (p : Point) : q.colourAt p = pos.colourAt p := by
  rw [Position.colourAt, Position.colourAt, h.content]

theorem millsAt (p : Point) : q.millsAt p = pos.millsAt p := by
  simp only [Position.millsAt, sideAt?, h.colourAt, h.men, h.linesWithin]

theorem allInMills (c : Side) : q.allInMills c = pos.allInMills c := by
  simp only [Position.allInMills, h.men, h.millsAt]

theorem millCount (c : Side) : q.millCount c = pos.millCount c := by
  rw [Position.millCount, Position.millCount, h.rule, h.men]

theorem neighbours (p : Point) : q.neighbours p = pos.neighbours p := by
  rw [Position.neighbours, Position.neighbours, h.rule]

theorem touches (p : Point) (c : Colour) : q.touches p c = pos.touches p c := by
  simp only [Position.touches, h.neighbours, h.colourAt]

theorem isBlocked (c : Side) : q.isBlocked c = pos.isBlocked c := by
  simp only [Position.isBlocked, totalOnBoard, h.onBoard, h.rule, h.men, h.occupied]

end SameBoard

/-! ## Legal moves -/

/-- Positions that differ in nothing on which the legal moves depend. -/
structure Matching (pos q : Position) : Prop extends SameBoard pos q, SameUnhashed pos q where
  owed : q.state.owed.get q.state.side = pos.state.owed.get pos.state.side
  takesOwn : q.state.takesOwn.get q.state.side = pos.state.takesOwn.get pos.state.side

namespace Matching

variable {q : Position} (h : pos.Matching q)
include h

theorem inHand_beq (c : Side) : (q.state.inHand.get c == 0) = (pos.state.inHand.get c == 0) := by
  rw [Bool.eq_iff_iff, beq_iff_eq, beq_iff_eq]
  exact h.hands c

/-- Matching positions have the same key. -/
theorem keyFromScratch : q.keyFromScratch = pos.keyFromScratch := by
  rw [Position.keyFromScratch, Position.keyFromScratch, owedBits, owedBits, h.owed, h.takesOwn,
    sidedKey, sidedKey, h.side, funext h.content]

/-- A side may fly in both positions or in neither. -/
theorem canFly (c : Side) : q.canFly c = pos.canFly c := by
  rw [Position.canFly, Position.canFly, h.rule, h.onBoard, h.inHand_beq]

/-! ### Placements and slides -/

/-- The same placements are generated. -/
theorem placements : q.placements = pos.placements := by
  have hhand : q.state.inHand.get q.state.side = 0 ↔ pos.state.inHand.get pos.state.side = 0 := by
    rw [h.side]
    exact h.hands _
  simp only [Position.placements, hhand, h.variant, h.content]

theorem returnsToMill (a b : Point) : q.returnsToMill a b = pos.returnsToMill a b := by
  simp only [Position.returnsToMill, h.rule, h.side, h.men, h.linesWithin, h.millsAt]
  cases hrepeated : pos.rule.restrictRepeatedMills with
  | false => rfl
  | true => rw [h.lastMill hrepeated]

theorem potentialMills (hrepeated : pos.rule.restrictRepeatedMills = true) (a b : Point) :
    q.potentialMills b (some pos.state.side) a = pos.potentialMills b (some pos.state.side) a := by
  simp only [Position.potentialMills, h.rule, h.side, h.men, h.linesWithin]
  cases honce : pos.rule.oneTimeMills with
  | false => rfl
  | true => rw [h.usedLines hrepeated honce]

theorem isBarredSlide (a b : Point) : q.isBarredSlide a b = pos.isBarredSlide a b := by
  simp only [Position.isBarredSlide, h.rule, h.side, h.millsAt, h.returnsToMill]
  cases hrepeated : pos.rule.restrictRepeatedMills with
  | false => rfl
  | true => rw [h.lastMill hrepeated, h.potentialMills hrepeated]

/-- A man reaches the same points. -/
theorem slideTargets (a : Point) : q.slideTargets a = pos.slideTargets a := by
  simp only [Position.slideTargets, h.side, h.canFly, h.variant, h.neighbours, h.content,
    h.returnsToMill, h.isBarredSlide]

/-- While a game goes on, men are placed unless placing is over. -/
theorem slides (hgoes : pos.state.phase ≠ .finished) (hgoes' : q.state.phase ≠ .finished) :
    q.slides = pos.slides := by
  have hplacing : (q.state.phase == .ready || q.state.phase == .placing) =
      (pos.state.phase == .ready || pos.state.phase == .placing) := by
    have hmoving := h.moving
    cases hphase : pos.state.phase <;> cases hphase' : q.state.phase <;>
      simp [hphase, hphase'] at hgoes hgoes' hmoving ⊢
  simp only [Position.slides, hplacing, h.rule, h.variant, h.content, h.side, h.slideTargets]

/-! ### Removals -/

theorem removalTarget : q.removalTarget = pos.removalTarget := by
  rw [Position.removalTarget, Position.removalTarget, h.takesOwn, h.side]

theorem isFullBoardRemoval (hphase : q.state.phase = .placing ↔ pos.state.phase = .placing) :
    q.isFullBoardRemoval = pos.isFullBoardRemoval := by
  have hplacing : (q.state.phase == .placing) = (pos.state.phase == .placing) := by
    rw [Bool.eq_iff_iff, beq_iff_eq, beq_iff_eq]
    exact hphase
  have hwhite := h.inHand_beq .white
  have hblack := h.inHand_beq .black
  simp only [PerSide.get] at hwhite hblack
  simp only [Position.isFullBoardRemoval, h.rule, hplacing, hwhite, hblack, h.millCount]

/-- The same removals are generated if the freeing removals are the same. -/
theorem removals (hfreeing : q.isFreeingRemoval = pos.isFreeingRemoval) :
    q.removals = pos.removals := by
  have hown := h.takesOwn
  rw [h.side] at hown
  simp only [Position.removals, hown, h.removalTarget, hfreeing, h.side, h.variant,
    h.content, h.touches, h.rule, h.allInMills, h.millsAt]

end Matching

/-! ### All moves -/

/-- In a game that goes on, the side to move is to remove a man exactly if it owes a removal. -/
theorem Stage.removes_iff (h : pos.Stage) (hgoes : pos.state.phase ≠ .finished) :
    pos.state.action = .remove ↔ pos.state.owed.get pos.state.side ≠ 0 := by
  cases h with
  | untouched huntouched => simp [huntouched.action, huntouched.owes]
  | going hturned _ => exact hturned.owes
  | finished hover => exact absurd hover hgoes

theorem legalMoves_of_remove (haction : pos.state.action = .remove) :
    pos.legalMoves = pos.removals := by
  rw [legalMoves, haction]

theorem legalMoves_of_not_remove (hgoes : pos.state.phase ≠ .finished)
    (haction : pos.state.action ≠ .remove) :
    pos.legalMoves =
      if pos.state.phase = .moving then pos.slides else pos.placements ++ pos.slides := by
  rw [legalMoves]
  cases hact : pos.state.action <;> cases hphase : pos.state.phase <;> simp_all

/-- A removal is made while men are placed or after that. -/
theorem Stage.placing_iff (h : pos.Stage) (hgoes : pos.state.phase ≠ .finished)
    (haction : pos.state.action = .remove) :
    pos.state.phase = .placing ↔ pos.state.phase ≠ .moving := by
  cases h with
  | untouched huntouched =>
      rw [huntouched.action] at haction
      cases haction
  | going hturned _ => rcases hturned.inProgress with hphase | hphase <;> simp [hphase]
  | finished hover => exact absurd hover hgoes

/-- Positions that match in all that moves depend on have the same legal moves in the same order. -/
theorem Matching.legalMoves {q : Position} (h : pos.Matching q) (hpos : pos.Sound) (hq : q.Sound)
    (hgoes : pos.state.phase ≠ .finished) (hgoes' : q.state.phase ≠ .finished)
    (hexcused : pos.Excused) (hexcused' : q.Excused) : q.legalMoves = pos.legalMoves := by
  have hremoves : q.state.action = .remove ↔ pos.state.action = .remove := by
    rw [hq.stage.removes_iff hgoes', hpos.stage.removes_iff hgoes, h.owed]
  by_cases haction : pos.state.action = .remove
  · have haction' := hremoves.2 haction
    -- when a removal is owed, the phase is one of two, and the key knows whether men are slid
    have hphase : q.state.phase = .placing ↔ pos.state.phase = .placing := by
      rw [hq.stage.placing_iff hgoes' haction', hpos.stage.placing_iff hgoes haction]
      exact not_congr h.moving
    have hfreeing : q.isFreeingRemoval = pos.isFreeingRemoval := by
      rw [hexcused.isFreeingRemoval_eq hgoes, hexcused'.isFreeingRemoval_eq hgoes',
        h.isFullBoardRemoval hphase, h.rule, h.side, h.isBlocked]
    rw [legalMoves_of_remove haction, legalMoves_of_remove haction', h.removals hfreeing]
  · have haction' : q.state.action ≠ .remove := fun h' => haction (hremoves.1 h')
    rw [legalMoves_of_not_remove hgoes haction, legalMoves_of_not_remove hgoes' haction',
      h.placements, h.slides hgoes hgoes']
    simp only [h.moving]

/-- Moves that lead from the beginning of games under one rule to two positions in a relation. -/
theorem exists_played_pair {rule : Rule} (hrule : ofRule rule = .ok (ofVariant (.ofRule rule)))
    {ms ms' : List Move} {related : Position → Position → Prop}
    [∀ pos q, Decidable (related pos q)]
    (h : ((ofVariant (.ofRule rule)).applyAll? ms).any (fun pos =>
      ((ofVariant (.ofRule rule)).applyAll? ms').any fun q => decide (related pos q)) = true) :
    ∃ pos q, PlayedBy (fun _ => True) rule pos ∧ PlayedBy (fun _ => True) rule q ∧
      related pos q := by
  obtain ⟨pos, hpos, hany⟩ := (Option.any_eq_true _ _).1 h
  obtain ⟨q, hq, hrelated⟩ := (Option.any_eq_true _ _).1 hany
  exact ⟨pos, q, (PlayedBy.begin hrule).applyAll (fun _ _ => trivial) hpos,
    (PlayedBy.begin hrule).applyAll (fun _ _ => trivial) hq, of_decide_eq_true hrelated⟩

/-- Four men a side are placed, and nobody closes a mill. -/
def placedOut : List Move :=
  [.place 8, .place 24, .place 10, .place 26, .place 13, .place 29, .place 20, .place 31]

/-- Each side slides a man to a neighbour and back. -/
def thereAndBack : List Move := [.slide 8 9, .slide 24 25, .slide 9 8, .slide 25 24]

/-- Three of four men a side are placed. -/
def threePlaced : List Move :=
  [.place 16, .place 25, .place 9, .place 18, .place 15, .place 27]

/-- Each side closes a mill and loses a man, and then slides out of its mill, so that the same men
stand on the same points. -/
def threeLeft : List Move :=
  [.place 8, .place 24, .place 9, .place 26, .place 15, .remove 24, .place 25, .place 12, .place 27,
    .remove 12, .slide 8 16, .slide 26 18]

/-- White slides out of one mill into another and takes a man. -/
def outAndIn : List Move :=
  [.place 15, .place 24, .place 9, .place 26, .place 23, .place 28, .place 17, .place 30, .place 16,
    .remove 24, .place 12, .slide 16 8, .remove 12, .slide 26 25]

example : ((ofVariant (.ofRule { pieceCount := 5, restrictRepeatedMills := true })).applyAll?
    outAndIn).any (fun pos => (pos.applyAll?
      [.slide 17 18, .slide 28 27, .slide 18 17, .slide 27 28]).any fun q =>
        decide (pos.SameHashed q ∧ q.state.phase = pos.state.phase ∧
          q.state.inHand = pos.state.inHand ∧
          .slide 8 16 ∈ q.legalMoves ∧ .slide 8 16 ∉ pos.legalMoves)) = true := by
  decide +kernel

/-! The lines scored with count too, where each scores once. The last mill is the same in two games,
but the man that closed it may leave it for a line only if the line has been scored with already. -/

/-- Seven men a side, repeated mills are restricted, and each line scores once. -/
def scarce : Rule where
  pieceCount := 7
  restrictRepeatedMills := true
  oneTimeMills := true

/-- White scores with a line of the outer ring and later, on the inner ring and the middle one, with
two lines more. -/
def scoredOutside : List Move :=
  [.place 31, .place 11, .place 24, .place 28, .place 25, .remove 28, .place 28, .place 15,
    .place 13, .place 9, .place 21, .place 23, .place 19, .place 18, .place 29, .slide 24 16,
    .slide 29 30, .slide 16 8, .remove 21, .slide 30 29, .slide 18 17, .slide 29 30, .slide 8 16,
    .remove 19, .slide 30 29]

/-- White scores with a line across the rings instead. -/
def scoredAcross : List Move :=
  [.place 8, .place 11, .place 16, .place 28, .place 24, .remove 28, .place 28, .place 15,
    .place 13, .place 9, .remove 13, .place 13, .place 23, .place 30, .place 25, .place 21,
    .slide 24 31, .slide 30 29, .slide 16 17, .slide 29 30, .slide 8 16, .remove 21, .slide 30 29]

example : ((ofVariant (.ofRule scarce)).applyAll? scoredOutside).any (fun pos =>
    ((ofVariant (.ofRule scarce)).applyAll? scoredAcross).any fun q =>
      decide (pos.SameHashed q ∧ q.state.phase = pos.state.phase ∧
        q.state.inHand = pos.state.inHand ∧ q.state.lastMill = pos.state.lastMill ∧
        .slide 16 24 ∈ pos.legalMoves ∧ .slide 16 24 ∉ q.legalMoves)) = true := by
  decide +kernel

end Position

end Morris
