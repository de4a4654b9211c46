import Morris.Position.Layout
import Morris.Proofs.Bitboard
import Morris.Proofs.Key

/-!
# Layouts whose forms agree

A layout keeps the board in several forms. `Layout.Agrees` says that they tell the same: nothing
stands outside the live points, each set holds the points of its content, and the points in use are
those that are not empty. `Layout.Counted` says that the men counted on the board are those that
stand there, and that no side has more men than it started with.

Filling an empty live point and emptying a point keep the forms in agreement (`Layout.Agrees.fill`,
`Layout.Agrees.vacate`), and so does making the sets anew (`Layout.agrees_rebuildSets`), whatever
they were before. A change of one place changes the number of men that stand on the board by the man
put down or taken off (`Layout.count_fill`, `Layout.count_vacate`). Layouts in agreement that hold
the same everywhere are the same but for the counts (`Layout.Agrees.eq_of_content`).
-/

set_option autoImplicit false

namespace Morris

theorem Point.lt_of_onBoard {p : Point} (hp : Point.onBoard p = true) : p < 32 := by
  simp only [Point.onBoard, decide_eq_true_eq] at hp
  exact hp.2

theorem PerSide.eq_of_get {α : Type} {v w : PerSide α} (h : ∀ c, v.get c = w.get c) : v = w := by
  cases v
  cases w
  exact congr (congrArg PerSide.mk (h .white)) (h .black)

theorem Side.man_inj {c d : Side} : c.man = d.man ↔ c = d := by
  cases c <;> cases d <;> decide

theorem Side.man_ne_empty (c : Side) : c.man ≠ .empty := by
  cases c <;> decide

theorem Side.man_ne_marked (c : Side) : c.man ≠ .marked := by
  cases c <;> decide

theorem Side.other_ne (c : Side) : c.other ≠ c := by
  cases c <;> decide

@[simp] theorem Side.other_other (c : Side) : c.other.other = c := by
  cases c <;> rfl

theorem Side.eq_or_eq_other (c d : Side) : c = d ∨ c = d.other := by
  cases c <;> cases d <;> decide

theorem PerSide.get_update {α : Type} (v : PerSide α) (c d : Side) (f : α → α) :
    (v.update c f).get d = if d = c then f (v.get d) else v.get d := by
  cases c <;> cases d <;> rfl

namespace Layout

/-! ## What stands on a point -/

theorem content_eq_getElem (l : Layout) {p : Point} (hp : p < room) : l.content p = l.board[p] := by
  rw [content, Vector.getElem?_eq_getElem hp, Option.getD_some]

/-- A change of one place of the board changes the content of that point alone. -/
theorem content_setBoard (l l' : Layout) (p : Point) (c : Content) (hp : p < room)
    (h : l'.board = l.board.setIfInBounds p c) (q : Point) :
    l'.content q = if q = p then c else l.content q := by
  rw [content, content, h, Vector.getElem?_setIfInBounds]
  by_cases hq : q = p
  · subst hq
    simp [hp]
  · have hpq : p ≠ q := fun e => hq e.symm
    simp [hq, hpq]

/-- Filling a point changes that point only. -/
theorem content_fill (l : Layout) {p : Point} (hp : p < 32) (c : Content) (q : Point) :
    (l.fill p c).content q = if q = p then c else l.content q :=
  content_setBoard l (l.fill p c) p c (Nat.lt_trans hp (by decide)) rfl q

/-- Emptying a point changes that point only. -/
theorem content_vacate (l : Layout) {p : Point} (hp : p < 32) (q : Point) :
    (l.vacate p).content q = if q = p then .empty else l.content q :=
  content_setBoard l (l.vacate p) p .empty (Nat.lt_trans hp (by decide)) rfl q

/-! ## Agreement of the forms -/

/-- The forms in which a layout keeps the board tell the same. -/
structure Agrees (l : Layout) : Prop where
  /-- Nothing stands outside the live points. -/
  outside : ∀ p, Point.onBoard p = false → l.content p = .empty
  men : ∀ c p, (l.men.get c).contains p = true ↔ l.content p = c.man
  marked : ∀ p, l.marked.contains p = true ↔ l.content p = .marked
  occupied : ∀ p, l.occupied.contains p = true ↔ l.content p ≠ .empty

namespace Agrees

variable {l : Layout}

/-- A point that is not empty is live. -/
theorem onBoard_of_content (h : l.Agrees) {p : Point} (hp : l.content p ≠ .empty) :
    Point.onBoard p = true := by
  cases hb : Point.onBoard p with
  | true => rfl
  | false => exact absurd (h.outside p hb) hp

/-- The points in use are those of either side and the marked ones. -/
theorem occupied_eq (h : l.Agrees) :
    l.occupied = (l.men.white.union l.men.black).union l.marked := by
  apply Bitboard.ext_contains
  intro p
  rw [Bitboard.contains_union, Bitboard.contains_union, Bool.eq_iff_iff, Bool.or_eq_true,
    Bool.or_eq_true, h.occupied p, h.marked p]
  have hw := h.men .white p
  have hb := h.men .black p
  simp only [PerSide.get, Side.man] at hw hb
  rw [hw, hb]
  cases l.content p <;> simp

/-- Filling an empty live point keeps the forms in agreement. -/
theorem fill (h : l.Agrees) {p : Point} (hp : Point.onBoard p = true)
    (hfree : l.content p = .empty) {c : Content} (hc : c ≠ .empty) : (l.fill p c).Agrees := by
  have hlt := Point.lt_of_onBoard hp
  constructor
  case outside =>
    intro q hq
    have hne : q ≠ p := by
      rintro rfl
      rw [hp] at hq
      cases hq
    rw [content_fill l hlt, if_neg hne]
    exact h.outside q hq
  case men =>
    intro d q
    -- a man joins the set of its own side and no other
    have hmen : ((l.fill p c).men.get d).contains q =
        ((l.men.get d).contains q || (decide (q = p) && decide (c = d.man))) := by
      cases c <;> cases d <;>
        simp [Layout.fill, PerSide.get, Side.man, Bitboard.contains_insert hlt]
    rw [hmen, content_fill l hlt, Bool.or_eq_true, h.men]
    by_cases hq : q = p
    · simp [hq, hfree, (Side.man_ne_empty d).symm]
    · simp [hq]
  case marked =>
    intro q
    have hmarked : (l.fill p c).marked.contains q =
        (l.marked.contains q || (decide (q = p) && decide (c = .marked))) := by
      cases c <;> simp [Layout.fill, Bitboard.contains_insert hlt]
    rw [hmarked, content_fill l hlt, Bool.or_eq_true, h.marked]
    by_cases hq : q = p
    · simp [hq, hfree]
    · simp [hq]
  case occupied =>
    intro q
    show (l.occupied.insert p).contains q = true ↔ _
    rw [content_fill l hlt, Bitboard.contains_insert hlt, Bool.or_eq_true, h.occupied]
    by_cases hq : q = p
    · simp [hq, hc]
    · simp [hq]

/-- Emptying a point keeps the forms in agreement. -/
theorem vacate (h : l.Agrees) {p : Point} (hp : p < 32) : (l.vacate p).Agrees := by
  constructor
  case outside =>
    intro q hq
    rw [content_vacate l hp, h.outside q hq, ite_self]
  case men =>
    intro d q
    show ((l.men.map fun b : Bitboard => b.erase p).get d).contains q = true ↔ _
    rw [content_vacate l hp, PerSide.get_map, Bitboard.contains_erase hp]
    by_cases hq : q = p
    · simp [hq, (Side.man_ne_empty d).symm]
    · simp [hq, h.men]
  case marked =>
    intro q
    show (l.marked.erase p).contains q = true ↔ _
    rw [content_vacate l hp, Bitboard.contains_erase hp]
    by_cases hq : q = p
    · simp [hq]
    · simp [hq, h.marked]
  case occupied =>
    intro q
    show (l.occupied.erase p).contains q = true ↔ _
    rw [content_vacate l hp, Bitboard.contains_erase hp]
    by_cases hq : q = p
    · simp [hq]
    · simp [hq, h.occupied]

end Agrees

theorem contains_pointsWith (l : Layout) (wanted : Content → Bool) (q : Point) :
    (l.pointsWith wanted).contains q = (Point.onBoard q && wanted (l.content q)) := by
  have hlt : ∀ p ∈ Point.all.filter fun p => wanted (l.content p), p < 32 := by
    intro p hp
    exact Point.lt_of_onBoard ((Point.mem_all p).1 (List.mem_filter.1 hp).1)
  rw [pointsWith, Bitboard.contains_ofPoints hlt, Bool.eq_iff_iff, Bool.and_eq_true,
    decide_eq_true_eq, List.mem_filter, Point.mem_all]

/-- Sets made anew from a board agree with it. -/
theorem agrees_rebuildSets {l : Layout}
    (houtside : ∀ p, Point.onBoard p = false → l.content p = .empty) : l.rebuildSets.Agrees := by
  have hcontent : ∀ q, l.rebuildSets.content q = l.content q := fun q => rfl
  -- the sets are made from the live points only, and nothing wanted stands elsewhere
  have hpoints : ∀ (wanted : Content → Bool) (q : Point), wanted .empty = false →
      ((l.pointsWith wanted).contains q = true ↔ wanted (l.content q) = true) := by
    intro wanted q hempty
    rw [contains_pointsWith, Bool.and_eq_true]
    constructor
    · exact fun h => h.2
    · intro h
      refine ⟨?_, h⟩
      cases hq : Point.onBoard q with
      | true => rfl
      | false =>
          rw [houtside q hq, hempty] at h
          exact h
  constructor
  case outside => exact houtside
  case men =>
    intro c q
    rw [hcontent]
    cases c with
    | white => exact (hpoints (· == .white) q rfl).trans beq_iff_eq
    | black => exact (hpoints (· == .black) q rfl).trans beq_iff_eq
  case marked =>
    intro q
    exact (hpoints (· == .marked) q rfl).trans beq_iff_eq
  case occupied =>
    intro q
    exact (hpoints (· != .empty) q rfl).trans bne_iff_ne

/-! ## Men that are counted -/

/-- The men counted on the board are those that stand there, and no side has more men than it
started with. -/
structure Counted (l : Layout) (pieceCount : Nat) : Prop where
  onBoard : ∀ c, l.onBoard.get c = l.board.count c.man
  within : ∀ c, l.onBoard.get c + l.inHand.get c ≤ pieceCount

theorem count_setBoard (l l' : Layout) (p : Point) (c : Content) (hp : p < room)
    (h : l'.board = l.board.setIfInBounds p c) (x : Content) :
    l'.board.count x + (if l.content p = x then 1 else 0) =
      l.board.count x + (if c = x then 1 else 0) := by
  have hset : l.board.setIfInBounds p c = l.board.set p c hp := by
    apply Vector.ext
    intro i hi
    rw [Vector.getElem_setIfInBounds, Vector.getElem_set]
  -- the count of a content that is overwritten is positive, so taking one off it loses nothing
  have hcount : l.content p = x → 0 < l.board.count x := by
    intro hx
    rw [content_eq_getElem l hp] at hx
    rw [← hx]
    exact Vector.count_pos_iff.2 (Vector.getElem_mem hp)
  rw [h, hset, Vector.count_set hp, ← content_eq_getElem l hp]
  by_cases hx : l.content p = x
  · have := hcount hx
    simp [hx]
    omega
  · simp [hx]

/-- A man or a mark put on an empty point is one more of its kind. -/
theorem count_fill (l : Layout) {p : Point} (hp : p < 32) (hfree : l.content p = .empty)
    (c : Content) {x : Content} (hx : x ≠ .empty) :
    (l.fill p c).board.count x = l.board.count x + (if c = x then 1 else 0) := by
  have hcount := count_setBoard l (l.fill p c) p c (Nat.lt_trans hp (by decide)) rfl x
  rw [hfree, if_neg hx.symm] at hcount
  exact hcount

/-- A man or a mark taken off is one less of its kind. -/
theorem count_vacate (l : Layout) {p : Point} (hp : p < 32) {x : Content} (hx : x ≠ .empty) :
    (l.vacate p).board.count x + (if l.content p = x then 1 else 0) = l.board.count x := by
  have hcount := count_setBoard l (l.vacate p) p .empty (Nat.lt_trans hp (by decide)) rfl x
  rw [if_neg hx.symm] at hcount
  exact hcount

end Layout

/-! ## Layouts told by their contents -/

/-- Layouts whose forms agree are told by what stands on the points, but for the counts. -/
theorem Layout.Agrees.eq_of_content {l l' : Layout} (h : l.Agrees) (h' : l'.Agrees)
    (hcontent : ∀ p, l.content p = l'.content p) :
    l.board = l'.board ∧ l.men = l'.men ∧ l.marked = l'.marked ∧ l.occupied = l'.occupied := by
  refine ⟨?_, ?_, ?_, ?_⟩
  · apply Vector.ext
    intro i hi
    rw [← content_eq_getElem l hi, ← content_eq_getElem l' hi, hcontent]
  -- each set is told by its members, and agreement tells these by the contents
  · apply PerSide.eq_of_get
    intro c
    apply Bitboard.ext_contains
    intro p
    rw [Bool.eq_iff_iff, h.men, h'.men, hcontent]
  · apply Bitboard.ext_contains
    intro p
    rw [Bool.eq_iff_iff, h.marked, h'.marked, hcontent]
  · apply Bitboard.ext_contains
    intro p
    rw [Bool.eq_iff_iff, h.occupied, h'.occupied, hcontent]

end Morris
