import Mathlib.Data.List.Sublists
import Morris.Evaluation
import Morris.Proofs.Lines

/-!
# How far men reach

The mobility of a side counts the neighbours of its men on which no man stands. `Board.border`
counts those on which none of its own men stands, and `Board.border_add_bonds_le` bounds them: the
points with more neighbours than the others fall into pairs of neighbours (`Board.couples`), and of
two neighbours at most one can count for both. Every other pair of neighbours within the set counts
against it, and filled lines consist of such pairs (`Board.lines_le_bonds`). So a side of `w` men
reaches about three or two points for each of them, and fewer for every line that it has filled
(`Position.Consistent.reach_add_lines_le`).
-/

set_option autoImplicit false

namespace Morris

namespace Board

variable {diagonals : Bool} {p : Point} {within : Point → Bool}

/-! ## Neighbours in pairs -/

/-- Pairs of a point and one of its neighbours. -/
def arcs (diagonals : Bool) : List (Point × Point) :=
  Point.all.flatMap fun p => (neighbours diagonals p).map fun q => (p, q)

/-- The number of neighbours that every point has at least. -/
def degree (diagonals : Bool) : Nat := if diagonals then 3 else 2

/-- Pairs of neighbours that share out the further neighbours of points. With diagonals the points
of the middle ring have one more than the others; on a plain board so do the outer ends of the cross
lines, and their middles have two more. -/
def couples (diagonals : Bool) : List (Point × Point) :=
  if diagonals then [(16, 17), (18, 19), (20, 21), (22, 23)]
  else [(8, 16), (16, 24), (10, 18), (18, 26), (12, 20), (20, 28), (14, 22), (22, 30)]

/-- Pairs of neighbours that are not couples. -/
def otherArcs (diagonals : Bool) : List (Point × Point) :=
  (arcs diagonals).filter fun a => !(couples diagonals).contains a

/-- Pairs of a point of a set and a neighbour outside of it. -/
def border (diagonals : Bool) (within : Point → Bool) : Nat :=
  (arcs diagonals).countP fun a => within a.1 && !within a.2

/-- Pairs of neighbours in a set that are not couples. -/
def bonds (diagonals : Bool) (within : Point → Bool) : Nat :=
  (otherArcs diagonals).countP fun a => within a.1 && within a.2

theorem couples_perm (diagonals : Bool) :
    ((arcs diagonals).filter (couples diagonals).contains).Perm (couples diagonals) := by
  cases diagonals <;> decide +kernel

/-- Every point occurs among the first points of the pairs as often as it has neighbours. -/
theorem arcs_fst_perm (diagonals : Bool) : ((arcs diagonals).map Prod.fst).Perm
    ((List.replicate (degree diagonals) Point.all).flatten ++
      (couples diagonals).flatMap fun a => [a.1, a.2]) := by
  cases diagonals <;> decide +kernel

/-- Of the points of a list of pairs as many belong to a set as there are pairs, and one more for
every pair of which both do. -/
theorem countP_pairs_le (within : Point → Bool) (pairs : List (Point × Point)) :
    (pairs.flatMap fun a => [a.1, a.2]).countP within ≤
      pairs.length + pairs.countP fun a => within a.1 && within a.2 := by
  induction pairs with
  | nil => exact Nat.le_refl 0
  | cons a pairs ih =>
      rw [List.flatMap_cons, List.countP_append, List.length_cons, List.countP_cons]
      simp only [List.countP_cons, List.countP_nil]
      cases within a.1 <;> cases within a.2 <;> simp <;> omega

theorem border_add_bonds_le (diagonals : Bool) (within : Point → Bool) :
    border diagonals within + bonds diagonals within ≤
      degree diagonals * Point.all.countP within + (couples diagonals).length := by
  have hfirst : (arcs diagonals).countP (fun a => within a.1) =
      degree diagonals * Point.all.countP within +
        ((couples diagonals).flatMap fun a => [a.1, a.2]).countP within := by
    have hperm := (arcs_fst_perm diagonals).countP_eq within
    rw [List.countP_map, List.countP_append, List.countP_flatten, List.map_replicate,
      List.sum_replicate_nat] at hperm
    exact hperm
  -- a pair that begins in the set ends outside of it or is one of neighbours in the set
  have hsplit : (arcs diagonals).countP (fun a => within a.1) =
      border diagonals within + (arcs diagonals).countP fun a => within a.1 && within a.2 := by
    rw [List.countP_eq_countP_filter_add _ _ fun a => within a.2, List.countP_filter,
      List.countP_filter, Nat.add_comm]
    rfl
  have hinside : (arcs diagonals).countP (fun a => within a.1 && within a.2) =
      (couples diagonals).countP (fun a => within a.1 && within a.2) + bonds diagonals within := by
    rw [List.countP_eq_countP_filter_add _ _ (couples diagonals).contains,
      (couples_perm diagonals).countP_eq]
    rfl
  have hcouples := countP_pairs_le within (couples diagonals)
  omega

/-- On a plain board two lines meet in a point, and with diagonals three do in a corner. -/
theorem length_lines_through (diagonals : Bool) (hp : Point.onBoard p = true) :
    ((lines diagonals).filter fun line => line.contains p).length ≤ 3 := by
  have hall : ∀ diagonals : Bool, ∀ p ∈ Point.all,
      ((lines diagonals).filter fun line => line.contains p).length ≤ 3 := by
    decide +kernel
  exact hall diagonals p ((Point.mem_all p).2 hp)

/-- Filled lines that meet in a point have four pairs of neighbours each, but for two of all these
pairs. -/
theorem lines_le_bonds (hp : Point.onBoard p = true) {filled : List Bitboard}
    (hfilled : filled.Sublist ((lines diagonals).filter fun line => line.contains p))
    (hwithin : ∀ line ∈ filled, ∀ q, line.contains q = true → within q = true) :
    4 * filled.length ≤ bonds diagonals within + 2 := by
  have hall : ∀ diagonals : Bool, ∀ p ∈ Point.all,
      ∀ filled ∈ ((lines diagonals).filter fun line => line.contains p).sublists,
        4 * filled.length ≤
          bonds diagonals (fun q => filled.any fun line => line.contains q) + 2 := by
    decide +kernel
  have hbonds := hall diagonals p ((Point.mem_all p).2 hp) filled (List.mem_sublists.2 hfilled)
  refine Nat.le_trans hbonds (Nat.add_le_add_right (List.countP_mono_left fun a _ ha => ?_) 2)
  simp only [Bool.and_eq_true, List.any_eq_true] at ha ⊢
  obtain ⟨⟨line, hline, hfirst⟩, line', hline', hsecond⟩ := ha
  exact ⟨hwithin line hline _ hfirst, hwithin line' hline' _ hsecond⟩

/-- Counting what is beside the points of a list goes pair by pair. -/
theorem length_flatMap_filter (next : Point → List Point) (first second : Point → Bool)
    (ps : List Point) : ((ps.filter first).flatMap fun p => (next p).filter second).length =
      (ps.flatMap fun p => (next p).map fun q => (p, q)).countP
        fun a => first a.1 && second a.2 := by
  induction ps with
  | nil => rfl
  | cons p ps ih =>
      -- a point that fails the first test adds nothing on either side
      have hhead : ((next p).map fun q => (p, q)).countP (fun a => first a.1 && second a.2) =
          if first p then ((next p).filter second).length else 0 := by
        rw [List.countP_map]
        cases hfirst : first p with
        | true =>
            rw [if_pos rfl, ← List.countP_eq_length_filter]
            exact List.countP_congr fun q _ => by simp [hfirst]
        | false =>
            rw [if_neg Bool.false_ne_true, List.countP_eq_zero]
            intro q _
            simp [hfirst]
      rw [List.filter_cons, List.flatMap_cons, List.countP_append, hhead, ← ih]
      cases first p <;> simp

end Board

namespace Position

variable {pos : Position} {c : Side}

/-! ## The reach of a side -/

theorem reach_le_border (pos : Position) (c : Side) :
    pos.reach c ≤ Board.border pos.rule.hasDiagonals (pos.men c).contains := by
  have hreach : pos.reach c = _ := Board.length_flatMap_filter pos.neighbours (pos.men c).contains
    (fun q => !(pos.state.men.white.union pos.state.men.black).contains q) Point.all
  rw [hreach]
  refine List.countP_mono_left fun a _ ha => ?_
  rw [Bool.and_eq_true, Bool.not_eq_true', Bitboard.contains_union, Bool.or_eq_false_iff] at ha
  obtain ⟨hfirst, hwhite, hblack⟩ := ha
  rw [Bool.and_eq_true, Bool.not_eq_true']
  refine ⟨hfirst, ?_⟩
  cases c with
  | white => exact hwhite
  | black => exact hblack

theorem Consistent.countP_men (h : pos.Consistent) (c : Side) :
    Point.all.countP (pos.men c).contains = pos.state.onBoard.get c := by
  rw [h.count c]
  refine List.countP_congr fun p _ => ?_
  rw [beq_iff_eq]
  exact h.agrees.men c p

theorem Consistent.reach_add_bonds_le (h : pos.Consistent) (c : Side) :
    pos.reach c + Board.bonds pos.rule.hasDiagonals (pos.men c).contains ≤
      Board.degree pos.rule.hasDiagonals * pos.state.onBoard.get c +
        (Board.couples pos.rule.hasDiagonals).length := by
  have hreach := pos.reach_le_border c
  have hborder := Board.border_add_bonds_le pos.rule.hasDiagonals (pos.men c).contains
  rw [h.countP_men] at hborder
  omega

theorem Consistent.reach_le (h : pos.Consistent) (c : Side) :
    pos.reach c ≤ Board.degree pos.rule.hasDiagonals * pos.state.onBoard.get c +
      (Board.couples pos.rule.hasDiagonals).length := by
  have hbound := h.reach_add_bonds_le c
  omega

theorem filledLines_sublist (pos : Position) (c : Side) (p : Point) : (pos.filledLines c p).Sublist
    ((Board.lines pos.rule.hasDiagonals).filter fun line => line.contains p) := by
  rw [filledLines, ← List.filter_filter]
  exact List.filter_sublist

/-- Filled lines that meet in a point take four pairs of neighbours each from the reach of their
side, but for two of all these pairs. -/
theorem Consistent.reach_add_lines_le (h : pos.Consistent) (c : Side) {p : Point}
    (hp : Point.onBoard p = true) : pos.reach c + 4 * (pos.filledLines c p).length ≤
      Board.degree pos.rule.hasDiagonals * pos.state.onBoard.get c +
        (Board.couples pos.rule.hasDiagonals).length + 2 := by
  have hbound := h.reach_add_bonds_le c
  have hlines := pos.filledLines_sublist c p
  have hbonds : _ ≤ Board.bonds _ (pos.men c).contains + 2 := Board.lines_le_bonds hp hlines
    fun line hline => (Bitboard.covers_iff.1 (mem_filledLines.1 hline).2.1).2
  omega

theorem length_filledLines_le (pos : Position) (c : Side) {p : Point}
    (hp : Point.onBoard p = true) : (pos.filledLines c p).length ≤ 3 := by
  have hlines := pos.filledLines_sublist c p
  exact Nat.le_trans hlines.length_le (Board.length_lines_through _ hp)

end Position

end Morris
