import Mathlib.Data.List.Forall2
import Mathlib.Data.List.SplitLengths
import Morris.Proofs.Ranked
import Morris.Proofs.Reorder

/-!
# Shuffled orders

The order of points is shuffled group by group, so each group keeps its points and its place however
often that is done (`Variant.Grouped.reshuffledAll`), and the whole stays a list of the live points.
What hangs on the order is the order in which moves are listed: `Position.reachable_reshuffled` says
that in every reachable position the legal moves are the same after any number of shuffles, and that
every move is answered as before. Nothing is asked of the generator or of the way to shuffle, except
that it permutes (`Random.Permutes`).
-/

set_option autoImplicit false

namespace Morris

variable {G : Type} {shuffle : List Point → G → List Point × G}

namespace Random

/-- Shuffled runs are the runs, shuffled. -/
theorem Permutes.runs (h : Permutes shuffle) {sizes : List Nat} {xs : List Point}
    (hfits : sizes.sum ≤ xs.length) (g : G) :
    List.Forall₂ List.Perm (sizes.splitLengths (Random.shuffleRunsBy shuffle sizes xs g).1)
      (sizes.splitLengths xs) := by
  induction sizes generalizing xs g with
  | nil => exact .nil
  | cons n sizes ih =>
      rw [List.sum_cons] at hfits
      have hrun := h (xs.take n) g
      -- the first run has its full length, so the second begins where it ends
      have hlength : (shuffle (xs.take n) g).1.length = n := by
        rw [hrun.length_eq, List.length_take]
        omega
      have hrest : sizes.sum ≤ (xs.drop n).length := by
        rw [List.length_drop]
        omega
      rw [List.splitLengths_cons, List.splitLengths_cons, Random.shuffleRunsBy,
        List.take_left' hlength, List.drop_left' hlength]
      exact .cons hrun (ih hrest _)

end Random

namespace Board

/-- An order of points, cut into the groups of equal value. -/
def inGroups (order : List Point) : List (List Point) := groupSizes.splitLengths order

theorem inGroups_order (diagonals : Bool) : inGroups (order diagonals) = groups diagonals := by
  cases diagonals <;> decide

theorem regrouped_trans {xs ys zs : List (List Point)} (h : List.Forall₂ List.Perm xs ys)
    (h' : List.Forall₂ List.Perm ys zs) : List.Forall₂ List.Perm xs zs := by
  induction h generalizing zs with
  | nil => exact h'
  | cons hgroup _ ih =>
      cases h' with
      | cons hgroup' hrest => exact .cons (hgroup.trans hgroup') (ih hrest)

end Board

namespace Variant

variable {v : Variant}

/-- The order of a variant lists the points of its board group by group. -/
structure Grouped (v : Variant) : Prop where
  order : v.order.Perm Point.all
  groups : List.Forall₂ List.Perm (Board.inGroups v.order) (Board.groups v.rule.hasDiagonals)

theorem grouped_ofRule (rule : Rule) : (ofRule rule).Grouped where
  order := Board.order_perm_all _
  groups := by
    rw [show (ofRule rule).order = Board.order rule.hasDiagonals from rfl, Board.inGroups_order]
    exact List.forall₂_same.2 fun group _ => .refl group

theorem Grouped.reshuffledBy (h : v.Grouped) (hshuffle : Random.Permutes shuffle) (g : G) :
    (v.reshuffledBy shuffle g).1.Grouped where
  order := (hshuffle.shuffleRunsBy Board.groupSizes v.order g).trans h.order
  groups := by
    have hfits : Board.groupSizes.sum ≤ v.order.length := Nat.le_of_eq h.order.length_eq.symm
    exact Board.regrouped_trans (hshuffle.runs hfits g) h.groups

/-- The groups of a variant hold the points of the groups of its board. -/
theorem Made.grouped (h : v.Made) : v.Grouped := by
  induction h with
  | @ofRule rule _ => exact grouped_ofRule rule
  | reshuffled g _ ih => exact ih.reshuffledBy Random.permutes_shuffle g

/-- The variant reshuffled once for each of a list of generators. -/
def reshuffledAll (shuffle : List Point → G → List Point × G) (v : Variant) (gs : List G) :
    Variant :=
  gs.foldl (fun v g => (v.reshuffledBy shuffle g).1) v

theorem Grouped.reshuffledAll (h : v.Grouped) (hshuffle : Random.Permutes shuffle) (gs : List G) :
    (v.reshuffledAll shuffle gs).Grouped := by
  induction gs generalizing v with
  | nil => exact h
  | cons g gs ih => exact ih (h.reshuffledBy hshuffle g)

theorem rule_reshuffledAll (shuffle : List Point → G → List Point × G) (v : Variant)
    (gs : List G) : (v.reshuffledAll shuffle gs).rule = v.rule := by
  induction gs generalizing v with
  | nil => rfl
  | cons g gs ih => exact ih (v.reshuffledBy shuffle g).1

end Variant

namespace Position

variable {pos next : Position} {rule : Rule}

/-! ## Variants of reachable positions -/

/-- An operation keeps the variant or begins a game under another rule. -/
theorem Performed.variant (h : pos.Performed next) :
    next.variant = pos.variant ∨ ∃ rule, ofRule rule = .ok next := by
  cases h with
  | refused => exact Or.inl rfl
  | started =>
      left
      rw [start]
      split <;> rfl
  | reset => exact Or.inl rfl
  | put hput => exact Or.inl (uncounted_put hput).variant
  | selected hselect =>
      obtain ⟨_, _, _, _, rfl⟩ := select_ok_iff.1 hselect
      exact Or.inl rfl
  | slid hslide => exact Or.inl (uncounted_slide hslide).variant
  | removed hremove => exact Or.inl (uncounted_remove hremove).variant
  | applied happly => exact Or.inl (variant_apply happly)
  | ended hend =>
      obtain ⟨_, rfl⟩ := endAgainst_spec hend
      exact Or.inl rfl
  | drawn => exact Or.inl rfl
  | settled => exact Or.inl (sameMen_settle pos).variant
  | chosen hrule => exact Or.inr ⟨_, hrule⟩
  | turned t => exact Or.inl (carried_image pos t).variant

/-- The variant of a reachable position is that of a valid rule, shuffled or not. -/
theorem Reachable.made (h : Reachable rule pos) : pos.variant.Made := by
  have hbegun : ∀ {rule : Rule} {pos : Position}, ofRule rule = .ok pos → pos.variant.Made := by
    intro rule pos hpos
    obtain ⟨v, hv, rfl⟩ := map_eq_ok_iff.1 hpos
    exact (Variant.made_of_ofRule hv).1
  induction h with
  | begin hpos => exact hbegun hpos
  | @perform pos op _ ih =>
      rcases (performed_perform pos op).variant with hsame | ⟨_, hpos⟩
      · rw [hsame]
        exact ih
      · exact hbegun hpos
  | adopt _ hmade _ _ => exact hmade
  | restore _ _ _ hnext ih _ =>
      cases hnext
      exact ih

/-! ## Moves in another order -/

/-- The position in the same variant, reshuffled once for each of a list of generators. -/
def reshuffledAll (shuffle : List Point → G → List Point × G) (pos : Position) (gs : List G) :
    Position :=
  { pos with variant := pos.variant.reshuffledAll shuffle gs }

theorem reshuffledAll_eq (shuffle : List Point → G → List Point × G) (pos : Position)
    (gs : List G) :
    pos.reshuffledAll shuffle gs = pos.reorder (pos.variant.reshuffledAll shuffle gs).order := by
  have hrule := pos.variant.rule_reshuffledAll shuffle gs
  show Position.mk (pos.variant.reshuffledAll shuffle gs) pos.state =
    ⟨⟨pos.variant.rule, _⟩, pos.state⟩
  rw [← hrule]

/-- In every reachable position and after any number of shuffles, by any way to shuffle that
permutes and each with a generator in any state: the rule is the same, the order lists the live
points, each group of it the points of that group of the board; the legal moves are the same, each
of them once, in an order of their own; and every move is accepted or refused as before and leads to
the same state. -/
theorem reachable_reshuffled (h : Reachable rule pos) (hshuffle : Random.Permutes shuffle)
    (gs : List G) :
    let next := pos.reshuffledAll shuffle gs
    next.rule = pos.rule ∧
      next.variant.order.Perm Point.all ∧
      List.Forall₂ List.Perm (Board.inGroups next.variant.order)
        (Board.groups pos.rule.hasDiagonals) ∧
      next.legalMoves.Perm pos.legalMoves ∧
      next.legalMoves.Nodup ∧
      ∀ m, (next.apply m).map Position.state = (pos.apply m).map Position.state := by
  intro next
  have hrule : next.rule = pos.rule := pos.variant.rule_reshuffledAll shuffle gs
  obtain ⟨horder, hgroups⟩ := h.made.grouped.reshuffledAll hshuffle gs
  have hnext : next = pos.reorder (pos.variant.reshuffledAll shuffle gs).order :=
    reshuffledAll_eq shuffle pos gs
  have hperm : next.legalMoves.Perm pos.legalMoves := by
    rw [hnext]
    exact legalMoves_perm (horder.trans h.made.grouped.order.symm)
  refine ⟨hrule, horder, hrule ▸ hgroups, hperm,
    hperm.nodup_iff.2 h.sound.toConsistent.nodup_legalMoves, fun m => ?_⟩
  rw [hnext, apply_reorder]
  cases pos.apply m with
  | error refusal => rfl
  | ok next => rfl

/-- Three men a side, who all fly once they are on the board. -/
def threeMen : Position :=
  (ofVariant (.ofRule { pieceCount := 3 })).performAll
    [.put 8, .put 9, .put 18, .put 19, .put 28, .put 29]

/-- The case of flights after two shuffles with generators of other seeds: the moves are listed in
another order, and none is lost. -/
theorem reachable_reshuffled_flights :
    Reachable { pieceCount := 3 } threeMen ∧
      Random.Permutes (Random.shuffle : List Point → _ → _) ∧
      threeMen.legalMoves.length = 54 ∧
      (threeMen.reshuffledAll Random.shuffle [.ofSeed 7, .ofSeed 8]).legalMoves ≠
        threeMen.legalMoves ∧
      (threeMen.reshuffledAll Random.shuffle [.ofSeed 7, .ofSeed 8]).legalMoves.Perm
        threeMen.legalMoves := by
  have hreach : Reachable { pieceCount := 3 } threeMen := (Reachable.begin rfl).performAll _
  obtain ⟨_, _, _, hperm, _, _⟩ :=
    reachable_reshuffled hreach Random.permutes_shuffle [.ofSeed 7, .ofSeed 8]
  exact ⟨hreach, Random.permutes_shuffle, by decide +kernel, by decide +kernel, hperm⟩

end Position

end Morris
