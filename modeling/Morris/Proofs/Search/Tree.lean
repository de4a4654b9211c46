import Mathlib.Algebra.Order.Ring.Int
import Morris.Proofs.Reachable
import Morris.Proofs.Legal
import Morris.Search.Negamax

/-!
# The tree of a game

What a search is to compute, told without windows and without a table. `Search.negamax` values a
position by looking at every line of legal moves up to a depth, and `Search.quietValue` goes on with
removals below it; both take the greatest value of a legal move (`Position.bestWorth`), where the
value of the position after a move is turned round if the side to move has changed. `Search.InTree`
gathers the positions that are looked at, with the depth that is left at each.
-/

set_option autoImplicit false

namespace Morris

namespace Position

/-! ## Legal moves and their values -/

/-- The position after a move, which is the same if the move is refused. -/
def after (pos : Position) (m : Move) : Position := (pos.apply m).toOption.getD pos

/-- Whether a move gives the turn to the other side. -/
def flips (pos : Position) (m : Move) : Bool := (pos.after m).state.side != pos.state.side

/-- The value of a move for the side that makes it, by a way to value positions for the side to
move. -/
def worth (pos : Position) (value : Position → Int) (m : Move) : Int :=
  if pos.flips m then -value (pos.after m) else value (pos.after m)

/-- The greatest value of a legal move, or a given one if there is no legal move. -/
def bestWorth (pos : Position) (value : Position → Int) (stuck : Int) : Int :=
  (pos.legalMoves.map (pos.worth value)).max?.getD stuck

section

variable {pos next : Position} {value : Position → Int} {m : Move}

/-- The position after an accepted move is the one that the move leads to. -/
theorem after_of_apply (h : pos.apply m = .ok next) : pos.after m = next := by
  rw [after, h]
  rfl

theorem bestWorth_of_stuck (h : pos.legalMoves = []) (stuck : Int) :
    pos.bestWorth value stuck = stuck := by
  rw [bestWorth, h]
  rfl

/-- The greatest value is the value of a legal move, and no legal move has a greater one. -/
theorem bestWorth_spec (h : pos.legalMoves ≠ []) (stuck : Int) :
    (∃ m ∈ pos.legalMoves, pos.worth value m = pos.bestWorth value stuck) ∧
      ∀ m ∈ pos.legalMoves, pos.worth value m ≤ pos.bestWorth value stuck := by
  have hne : pos.legalMoves.map (pos.worth value) ≠ [] := fun hnil => h (List.map_eq_nil_iff.1 hnil)
  obtain ⟨best, hbest⟩ := Option.isSome_iff_exists.1 (List.isSome_max?_of_ne_nil hne)
  obtain ⟨hmem, hmax⟩ := List.max?_eq_some_iff.1 hbest
  rw [bestWorth, hbest]
  exact ⟨List.mem_map.1 hmem, fun m hm => hmax _ (List.mem_map.2 ⟨m, hm, rfl⟩)⟩

theorem worth_bounded {limit : Int}
    (h : -limit ≤ value (pos.after m) ∧ value (pos.after m) ≤ limit) :
    -limit ≤ pos.worth value m ∧ pos.worth value m ≤ limit := by
  simp only [worth]
  split <;> omega

/-- The best worth is within a limit that bounds every value. -/
theorem bestWorth_bounded {limit stuck : Int} (hstuck : -limit ≤ stuck ∧ stuck ≤ limit)
    (h : ∀ next, -limit ≤ value next ∧ value next ≤ limit) :
    -limit ≤ pos.bestWorth value stuck ∧ pos.bestWorth value stuck ≤ limit := by
  by_cases hmoves : pos.legalMoves = []
  · rw [bestWorth_of_stuck hmoves]
    exact hstuck
  · obtain ⟨⟨m, _, hm⟩, _⟩ := @bestWorth_spec _ value hmoves stuck
    rw [← hm]
    exact worth_bounded (h (pos.after m))

end

/-! ## Legal moves are accepted -/

/-- A legal move leads to a sound position of the same variant, and is accepted. -/
theorem Sound.after_spec {pos : Position} (h : pos.Sound) (hover : pos.isOver = false) {m : Move}
    (hm : m ∈ pos.legalMoves) :
    pos.apply m = .ok (pos.after m) ∧ (pos.after m).Sound ∧
      (pos.after m).variant = pos.variant := by
  have hphase : pos.state.phase ≠ .finished := by
    simpa [isOver] using hover
  obtain ⟨next, hnext⟩ := h.exists_apply hphase hm
  rw [after_of_apply hnext]
  exact ⟨hnext, h.apply hnext, variant_apply hnext⟩

/-! ## Ranked moves -/

/-- The ranked moves are the legal moves in another order. -/
theorem map_move_rankedMoves_perm (pos : Position) (remembered : Move) :
    ((pos.rankedMoves remembered).map RankedMove.move).Perm pos.legalMoves := by
  have hmap : (pos.legalMoves.map fun m =>
      (⟨m, pos.scoreOf remembered m⟩ : RankedMove)).map RankedMove.move = pos.legalMoves := by
    rw [List.map_map]
    exact List.map_id pos.legalMoves
  have hsorted := (List.mergeSort_perm (pos.legalMoves.map fun m =>
    (⟨m, pos.scoreOf remembered m⟩ : RankedMove)) fun x y => decide (y.score ≤ x.score)).map
      RankedMove.move
  rw [hmap] at hsorted
  exact hsorted

theorem mem_legalMoves_of_ranked {pos : Position} {remembered : Move} {r : RankedMove}
    (hr : r ∈ pos.rankedMoves remembered) : r.move ∈ pos.legalMoves :=
  (pos.map_move_rankedMoves_perm remembered).mem_iff.1 (List.mem_map_of_mem hr)

theorem exists_ranked {pos : Position} {m : Move} (hm : m ∈ pos.legalMoves) (remembered : Move) :
    ∃ r ∈ pos.rankedMoves remembered, r.move = m :=
  List.mem_map.1 ((pos.map_move_rankedMoves_perm remembered).mem_iff.2 hm)

/-- There are as many ranked moves as legal ones. -/
theorem length_rankedMoves (pos : Position) (remembered : Move) :
    (pos.rankedMoves remembered).length = pos.legalMoves.length := by
  rw [← (pos.map_move_rankedMoves_perm remembered).length_eq, List.length_map]

theorem isEmpty_rankedMoves (pos : Position) (remembered : Move) :
    (pos.rankedMoves remembered).isEmpty = pos.legalMoves.isEmpty := by
  rw [Bool.eq_iff_iff, List.isEmpty_iff_length_eq_zero, List.isEmpty_iff_length_eq_zero,
    length_rankedMoves]

/-- With a choice of moves, at least two are ranked. -/
theorem exists_ranked_pair {pos : Position} (h : 2 ≤ pos.legalMoves.length) (remembered : Move) :
    ∃ first second rest, pos.rankedMoves remembered = first :: second :: rest := by
  rw [← pos.length_rankedMoves remembered] at h
  generalize pos.rankedMoves remembered = ranked at h ⊢
  rcases ranked with _ | ⟨first, _ | ⟨second, rest⟩⟩
  · simp at h
  · simp at h
  · exact ⟨first, second, rest, rfl⟩

end Position

namespace Search

/-! ## Values -/

/-- The value of a position past the horizon: owed removals are played, until none is owed, there
is none to play or the depth is used up. -/
def quietValue (value : Position → Int) : Nat → Position → Int
  | 0, pos => value pos
  | d + 1, pos =>
      if pos.isOver || pos.state.action != .remove then value pos
      else pos.bestWorth (quietValue value d) (value pos)

/-- The value of a position by all lines of legal moves up to a depth, with the evaluator and the
depth past the horizon of a setup. -/
def negamax (setup : Setup) : Nat → Position → Int
  | 0, pos =>
      let value := setup.evaluator.value
      if pos.isOver then biased (value pos) 0 else quietValue value setup.quietDepth pos
  | d + 1, pos =>
      let static := biased (setup.evaluator.value pos) ((d + 1 : Nat) : Int)
      if pos.isOver then static else pos.bestWorth (negamax setup d) static

theorem negamax_of_going {setup : Setup} {pos : Position} (hover : pos.isOver = false) (d : Nat) :
    negamax setup (d + 1) pos = pos.bestWorth (negamax setup d)
      (biased (setup.evaluator.value pos) ((d + 1 : Nat) : Int)) := by
  rw [negamax, if_neg (by simp [hover])]

section

variable {value : Position → Int} {limit : Int}

theorem biased_bounded {v : Int} {d : Nat} (hv : -limit ≤ v ∧ v ≤ limit) :
    -(limit + d) ≤ biased v d ∧ biased v d ≤ limit + d := by
  simp only [biased]
  split <;> omega

/-- A quiet value is within a limit that bounds the static ones. -/
theorem quietValue_bounded (hvalue : ∀ pos, -limit ≤ value pos ∧ value pos ≤ limit) (d : Nat)
    (pos : Position) : -limit ≤ quietValue value d pos ∧ quietValue value d pos ≤ limit := by
  induction d generalizing pos with
  | zero => exact hvalue pos
  | succ d ih =>
      simp only [quietValue]
      split
      · exact hvalue pos
      · exact Position.bestWorth_bounded (hvalue pos) ih

/-- Each step of depth adds at most one to the bound on the values. -/
theorem negamax_bounded {setup : Setup}
    (hvalue : ∀ pos, -limit ≤ setup.evaluator.value pos ∧ setup.evaluator.value pos ≤ limit)
    (d : Nat) (pos : Position) :
    -(limit + d) ≤ negamax setup d pos ∧ negamax setup d pos ≤ limit + d := by
  induction d generalizing pos with
  | zero =>
      simp only [negamax]
      split
      · exact biased_bounded (hvalue pos)
      · have hquiet := quietValue_bounded hvalue setup.quietDepth pos
        simpa using hquiet
  | succ d ih =>
      have hstatic := @biased_bounded _ _ (d + 1) (hvalue pos)
      simp only [negamax]
      split
      · exact hstatic
      · apply Position.bestWorth_bounded hstatic
        intro next
        -- one step of depth more leaves room for one more
        have hnext := ih next
        push_cast
        omega

end

/-! ## Nodes -/

/-- The nodes of the tree of legal moves below a position, with the depth that is left at each. -/
inductive InTree (top : Position) (depth : Nat) : Position → Nat → Prop
  | top : InTree top depth top depth
  | child {pos : Position} {d : Nat} {m : Move} : InTree top depth pos (d + 1) →
      pos.isOver = false → m ∈ pos.legalMoves → InTree top depth (pos.after m) d

/-- Whether the keys of a tree tell its values apart: unfinished nodes with some depth left and
equal keys have the same value. -/
def KeysTell (setup : Setup) (top : Position) (depth : Nat) : Prop :=
  ∀ pos next d e, InTree top depth pos (d + 1) → InTree top depth next (e + 1) →
    pos.isOver = false → next.isOver = false → pos.state.key = next.state.key →
    negamax setup (d + 1) pos = negamax setup (e + 1) next

theorem InTree.le {top pos : Position} {depth d : Nat} (h : InTree top depth pos d) :
    d ≤ depth := by
  induction h with
  | top => exact Nat.le_refl depth
  | child _ _ _ ih => exact Nat.le_of_succ_le ih

/-- Every position of a tree over a sound one is sound, and of the same variant. -/
theorem InTree.sound {top pos : Position} {depth d : Nat} (h : InTree top depth pos d)
    (htop : top.Sound) : pos.Sound ∧ pos.variant = top.variant := by
  induction h with
  | top => exact ⟨htop, rfl⟩
  | child _ hover hm ih =>
      obtain ⟨hsound, hvariant⟩ := ih
      obtain ⟨_, hnext, hkept⟩ := hsound.after_spec hover hm
      exact ⟨hnext, hkept.trans hvariant⟩

end Search

end Morris
