import Mathlib.Data.List.Perm.Basic
import Mathlib.Tactic.SplitIfs
import Morris.Moves.Legal

/-!
# Orders of points

The order of points is the order in which moves are generated, and nothing else depends on it. In
another order a position has the same legal moves, permuted (`Position.legalMoves_perm`), and a move
is accepted or refused as before and leads to the same state (`Position.apply_reorder`).

The second part goes through the acts of a player from the inside out. What an act looks up is the
same by definition; that what it does commutes with a change of the order is tagged for `simp` where
other acts build on it.
-/

set_option autoImplicit false

namespace Morris.Position

/-- The position with another order of points. -/
def reorder (pos : Position) (order : List Point) : Position :=
  { pos with variant := { pos.variant with order := order } }

section Moves

variable {pos : Position}

/-! ## Legal moves -/

/-- A man reaches the same points; one that flies finds them in another order. -/
theorem slideTargets_perm {order : List Point} (h : order.Perm pos.variant.order) (a : Point) :
    ((pos.reorder order).slideTargets a).Perm (pos.slideTargets a) := by
  have hfly : (pos.reorder order).canFly (pos.reorder order).state.side =
      pos.canFly pos.state.side := rfl
  simp only [slideTargets, hfly]
  split
  · exact h.filter _
  · exact .refl _

/-- The same slides are generated, permuted. -/
theorem slides_perm {order : List Point} (h : order.Perm pos.variant.order) :
    (pos.reorder order).slides.Perm pos.slides := by
  have hphase : (pos.reorder order).state.phase = pos.state.phase := rfl
  have hrule : (pos.reorder order).rule = pos.rule := rfl
  simp only [slides, hphase, hrule]
  split
  · exact .refl _
  · have hmen : (order.reverse.filter fun a =>
        (pos.reorder order).contentAt a == (pos.reorder order).state.side.man).Perm
          (pos.variant.order.reverse.filter fun a => pos.contentAt a == pos.state.side.man) :=
      ((List.reverse_perm order).trans (h.trans (List.reverse_perm _).symm)).filter _
    exact hmen.flatMap fun a _ => (slideTargets_perm h a).map _

/-- The same removals are generated, permuted. -/
theorem removals_perm {order : List Point} (h : order.Perm pos.variant.order) :
    (pos.reorder order).removals.Perm pos.removals := by
  have hmen : (order.reverse.filter fun p => pos.contentAt p == pos.removalTarget.man).Perm
      (pos.variant.order.reverse.filter fun p => pos.contentAt p == pos.removalTarget.man) :=
    ((List.reverse_perm order).trans (h.trans (List.reverse_perm _).symm)).filter _
  apply List.Perm.map
  have hfrees : (pos.reorder order).isFreeingRemoval = pos.isFreeingRemoval := rfl
  have hprotects : ((pos.reorder order).rule.mayRemoveFromMills ||
      (pos.reorder order).allInMills (pos.reorder order).removalTarget) =
        (pos.rule.mayRemoveFromMills || pos.allInMills pos.removalTarget) := rfl
  -- which men are protected does not depend on the order
  rw [hfrees, hprotects]
  split
  · exact hmen.filter _
  · split
    · exact hmen
    · exact hmen.filter _

/-- Another order of points permutes the legal moves. -/
theorem legalMoves_perm {order : List Point} (h : order.Perm pos.variant.order) :
    (pos.reorder order).legalMoves.Perm pos.legalMoves := by
  have hplacements : (pos.reorder order).placements.Perm pos.placements := by
    have hhand : (pos.reorder order).state.inHand.get (pos.reorder order).state.side =
        pos.state.inHand.get pos.state.side := rfl
    simp only [placements, hhand]
    split
    · exact .refl _
    · exact (h.filter _).map _
  have haction : (pos.reorder order).state.action = pos.state.action := rfl
  have hphase : (pos.reorder order).state.phase = pos.state.phase := rfl
  simp only [legalMoves, haction, hphase]
  split
  · exact removals_perm h
  · exact hplacements.append (slides_perm h)
  · exact hplacements.append (slides_perm h)
  · exact slides_perm h
  · exact .refl _

end Moves

/-! ## Turns and endings -/

section Acts

variable (pos : Position) (order : List Point)

@[simp]
theorem state_reorder : (pos.reorder order).state = pos.state := rfl

@[simp]
theorem rule_reorder : (pos.reorder order).rule = pos.rule := rfl

@[simp]
theorem mapState_reorder (f : State → State) :
    (pos.reorder order).mapState f = (pos.mapState f).reorder order := rfl

@[simp]
theorem giveTurn_reorder (c : Side) :
    (pos.reorder order).giveTurn c = (pos.giveTurn c).reorder order := rfl

@[simp]
theorem passTurn_reorder : (pos.reorder order).passTurn = pos.passTurn.reorder order := rfl

@[simp]
theorem keepTurn_reorder : (pos.reorder order).keepTurn = pos.keepTurn.reorder order := rfl

@[simp]
theorem finish_reorder (winner : Colour) (ending : Ending) :
    (pos.reorder order).finish winner ending = (pos.finish winner ending).reorder order := rfl

@[simp]
theorem oweFreeing_reorder : (pos.reorder order).oweFreeing = pos.oweFreeing.reorder order := rfl

@[simp]
theorem oweRemovals_reorder (n : Nat) :
    (pos.reorder order).oweRemovals n = (pos.oweRemovals n).reorder order := rfl

@[simp]
theorem turnToRemoval_reorder :
    (pos.reorder order).turnToRemoval = pos.turnToRemoval.reorder order := by
  -- both sides ask the same, but each decides it in its own way, so the case is named
  by_cases howed : pos.state.owed.get pos.state.side = 0 <;> simp [turnToRemoval, howed]

/-- A blocked side is treated alike in every order. -/
@[simp]
theorem resolveBlocked_reorder :
    (pos.reorder order).resolveBlocked = pos.resolveBlocked.reorder order := by
  simp only [resolveBlocked, rule_reorder, state_reorder]
  split <;> simp

/-- A position is settled alike in every order. -/
@[simp]
theorem settle_reorder : (pos.reorder order).settle = pos.settle.reorder order := by
  have hbeaten : ∀ c, (pos.reorder order).isBeaten c = pos.isBeaten c := fun _ => rfl
  have hend : (pos.reorder order).isEndgameLimitReached = pos.isEndgameLimitReached := rfl
  have hblocked : ∀ c, (pos.reorder order).isBlocked c = pos.isBlocked c := fun _ => rfl
  simp only [settle, state_reorder, rule_reorder, hbeaten, hend, hblocked]
  split
  · rfl
  · rfl
  · split_ifs <;> simp

theorem clearMarks_reorder : (pos.reorder order).clearMarks = pos.clearMarks.reorder order :=
  List.foldl_hom (reorder · order) fun _ _ => rfl

/-- Placing ends in one order if it does in another, and in the same way. -/
@[simp]
theorem endPlacing?_reorder :
    (pos.reorder order).endPlacing? = pos.endPlacing?.map (·.reorder order) := by
  have hdone : (pos.reorder order).isPlacingDone = pos.isPlacingDone := rfl
  have howe : (pos.reorder order).oweForMills = pos.oweForMills.reorder order := rfl
  simp only [endPlacing?, hdone, howe, rule_reorder, clearMarks_reorder, giveTurn_reorder]
  split
  · rfl
  · split
    · rfl
    · rfl
    · by_cases hkeeps : (keepsTurnAfterPlacing pos.rule && !pos.rule.defenderMovesFirst) = true <;>
        simp [hkeeps]

@[simp]
theorem endPlacingOrPass_reorder :
    (pos.reorder order).endPlacingOrPass = pos.endPlacingOrPass.reorder order := by
  simp only [endPlacingOrPass, endPlacing?_reorder, passTurn_reorder]
  cases pos.endPlacing? <;> rfl

/-- A full board is resolved alike in every order. -/
@[simp]
theorem resolveFullBoard_reorder :
    (pos.reorder order).resolveFullBoard = pos.resolveFullBoard.reorder order := by
  simp only [resolveFullBoard, rule_reorder]
  split <;> rfl

/-! ## Placing and sliding -/

@[simp]
theorem takeFromHand_reorder (n : Nat) :
    (pos.reorder order).takeFromHand n = (pos.takeFromHand n).reorder order := by
  have hraid : (pos.reorder order).raidHand n = (pos.raidHand n).reorder order := rfl
  simp only [takeFromHand, state_reorder, hraid, endPlacing?_reorder, rule_reorder]
  split
  · rfl
  · cases (pos.raidHand n).endPlacing? with
    | some ended => simp
    | none =>
        simp only [Option.map_none]
        split <;> simp

/-- What follows a placement does not depend on the order. -/
theorem afterDrop_reorder (n : Nat) :
    (pos.reorder order).afterDrop n = (pos.afterDrop n).reorder order := by
  have htotal : (pos.reorder order).totalOnBoard = pos.totalOnBoard := rfl
  simp only [afterDrop, rule_reorder, htotal, oweRemovals_reorder]
  split_ifs
  · simp
  · simp
  · simp
  · split <;> simp

/-- What follows a slide does not depend on the order. -/
theorem afterShift_reorder (a b : Point) (opened n : Nat) :
    (pos.reorder order).afterShift a b opened n = (pos.afterShift a b opened n).reorder order := by
  have hremember : ∀ slid, (pos.reorder order).remember slid = (pos.remember slid).reorder order :=
    fun _ => rfl
  simp only [afterShift, rule_reorder, hremember]
  split_ifs <;> simp

/-- What an act comes to, with another order of points. -/
def reorderAct (order : List Point) (act : Nat × Position) : Nat × Position :=
  (act.1, act.2.reorder order)

/-- A man closes the same mills in every order. -/
theorem scoreMills_reorder (p : Point) (c : Side) :
    (pos.reorder order).scoreMills p c = reorderAct order (pos.scoreMills p c) := by
  have hmen : (pos.reorder order).men c = pos.men c := rfl
  have hmills : (pos.reorder order).millsAt p = pos.millsAt p := rfl
  simp only [scoreMills, rule_reorder, state_reorder, hmen, hmills]
  split <;> rfl

/-- A placement is the same in every order. -/
theorem placeMan_reorder (p : Point) :
    (pos.reorder order).placeMan p = reorderAct order (pos.placeMan p) := by
  have hdrop : (pos.reorder order).drop p = (pos.drop p).reorder order := rfl
  simp only [placeMan, hdrop, state_reorder, scoreMills_reorder, reorderAct, afterDrop_reorder]

/-- A slide is the same in every order. -/
theorem slideMan_reorder (a b : Point) :
    (pos.reorder order).slideMan a b = reorderAct order (pos.slideMan a b) := by
  have hshift : (pos.reorder order).shift a b = (pos.shift a b).reorder order := rfl
  have hopened : ∀ owned, (pos.reorder order).linesWithin a owned = pos.linesWithin a owned :=
    fun _ => rfl
  have hmen : ∀ c, (pos.reorder order).men c = pos.men c := fun _ => rfl
  simp only [slideMan, hshift, hopened, hmen, state_reorder, scoreMills_reorder, reorderAct,
    afterShift_reorder]

/-! ## Acts of a player -/

theorem slideSelected_reorder (b : Point) :
    (pos.reorder order).slideSelected b = (pos.slideSelected b).map (reorderAct order) := by
  have hcontent : ∀ p, (pos.reorder order).contentAt p = pos.contentAt p := fun _ => rfl
  have hfly : ∀ c, (pos.reorder order).canFly c = pos.canFly c := fun _ => rfl
  have hreturns : ∀ a, (pos.reorder order).returnsToMill a b = pos.returnsToMill a b := fun _ => rfl
  simp only [slideSelected, state_reorder, rule_reorder, hcontent, hfly, hreturns, slideMan_reorder]
  split
  · rfl
  · split_ifs <;> rfl

theorem start_reorder : (pos.reorder order).start = pos.start.reorder order := by
  simp only [start, state_reorder]
  split <;> rfl

theorem placeFromHand_reorder (p : Point) :
    (pos.reorder order).placeFromHand p = (pos.placeFromHand p).map (reorderAct order) := by
  simp only [placeFromHand, state_reorder, start_reorder, placeMan_reorder]
  split <;> rfl

/-- Pointing at a point is accepted or refused alike, with the same outcome. -/
theorem put_reorder (p : Point) :
    (pos.reorder order).put p = (pos.put p).map (reorderAct order) := by
  have hfault : (pos.reorder order).pointFault? p = pos.pointFault? p := rfl
  have hcontent : (pos.reorder order).contentAt p = pos.contentAt p := rfl
  have htoggle : (pos.reorder order).toggle p = (pos.toggle p).reorder order := rfl
  simp only [put, putOn, hfault, hcontent, htoggle, state_reorder, rule_reorder,
    placeFromHand_reorder, slideSelected_reorder]
  split
  · rfl
  · split <;> try rfl
    split_ifs <;> rfl

theorem select_reorder (p : Point) :
    (pos.reorder order).select p = (pos.select p).map (·.reorder order) := by
  have hcontent : (pos.reorder order).contentAt p = pos.contentAt p := rfl
  have hpick : (pos.reorder order).pick p = (pos.pick p).reorder order := rfl
  simp only [select, state_reorder, rule_reorder, hcontent, hpick]
  split_ifs <;> rfl

/-- A slide is accepted or refused alike, with the same outcome. -/
theorem slide_reorder (a b : Point) :
    (pos.reorder order).slide a b = (pos.slide a b).map (reorderAct order) := by
  simp only [slide, select_reorder]
  cases pos.select a with
  | error _ => rfl
  | ok picked => exact put_reorder picked order b

/-! ## Removing -/

theorem takeMan_reorder (p : Point) (target : Side) :
    (pos.reorder order).takeMan p target = (pos.takeMan p target).reorder order := by
  have hclear : (pos.reorder order).clearPoint p = (pos.clearPoint p).reorder order := by
    have hvacate : (pos.reorder order).vacate p = (pos.vacate p).reorder order := rfl
    simp only [clearPoint, state_reorder, rule_reorder, hvacate]
    split_ifs <;> rfl
  -- the count and the key look at the state alone
  simp only [takeMan, hclear, state_reorder]
  rfl

theorem afterRemovals_reorder :
    (pos.reorder order).afterRemovals = pos.afterRemovals.reorder order := by
  simp only [afterRemovals, endPlacing?_reorder, state_reorder, mapState_reorder, keepTurn_reorder,
    passTurn_reorder]
  cases pos.endPlacing? with
  | some ended => rfl
  | none =>
      simp only [Option.map_none]
      by_cases hfrees : pos.state.freesMover = true <;> simp [hfrees]

/-- What follows a removal does not depend on the order. -/
theorem afterTaking_reorder (target : Side) :
    (pos.reorder order).afterTaking target = (pos.afterTaking target).reorder order := by
  have hbeaten : (pos.reorder order).isBeaten target = pos.isBeaten target := rfl
  simp only [afterTaking, hbeaten, afterRemovals_reorder, state_reorder, settle_reorder,
    finish_reorder]
  split_ifs <;> rfl

/-- A removal is accepted or refused alike, with the same outcome. -/
theorem remove_reorder (p : Point) :
    (pos.reorder order).remove p = (pos.remove p).map (·.reorder order) := by
  have hfault : (pos.reorder order).removalFault? p = pos.removalFault? p := rfl
  have htarget : (pos.reorder order).removalTarget = pos.removalTarget := rfl
  simp only [remove, hfault, htarget, takeMan_reorder, afterTaking_reorder]
  split <;> rfl

/-! ## Moves -/

/-- In another order of points a move is accepted or refused as before, and leads to the same
state. -/
theorem apply_reorder (m : Move) :
    (pos.reorder order).apply m = (pos.apply m).map (·.reorder order) := by
  have hrelease : (pos.reorder order).release = pos.release.reorder order := rfl
  simp only [apply, hrelease, remove_reorder, slide_reorder, put_reorder]
  cases m.kind with
  | remove => cases pos.remove m.target <;> rfl
  | slide => cases pos.slide m.origin m.target <;> rfl
  | place => cases pos.release.put m.target <;> rfl

end Acts

end Morris.Position
