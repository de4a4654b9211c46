import Morris.Position.Image
import Morris.Proofs.Sound

/-!
# Images of sound positions

A symmetry permutes the live points (`Symmetry.map_all_perm`), so the image of a position holds on
the image of a point what the position holds on the point (`Position.contentAt_image`) and nothing
outside the board. Men are neither lost nor made, and since the sets and the key are made anew, the
image of a sound position is sound.
-/

set_option autoImplicit false

namespace Morris

/-! ## Points -/

/-- A symmetry of the board permutes its live points. -/
theorem Symmetry.map_all_perm (t : Symmetry) : (Point.all.map t.onPoint).Perm Point.all := by
  cases t <;> decide +kernel

theorem Symmetry.onBoard_onPoint (t : Symmetry) {p : Point} (hp : Point.onBoard p = true) :
    Point.onBoard (t.onPoint p) = true := by
  rw [← Point.mem_all] at hp ⊢
  exact t.map_all_perm.mem_iff.1 (List.mem_map_of_mem hp)

/-- Every live point is the image of one. -/
theorem Symmetry.exists_onPoint_eq (t : Symmetry) {q : Point} (hq : Point.onBoard q = true) :
    ∃ p, Point.onBoard p = true ∧ t.onPoint p = q := by
  rw [← Point.mem_all] at hq
  obtain ⟨p, hp, hpq⟩ := List.mem_map.1 (t.map_all_perm.mem_iff.2 hq)
  exact ⟨p, (Point.mem_all p).1 hp, hpq⟩

theorem Symmetry.nodup_map_all (t : Symmetry) : (Point.all.map t.onPoint).Nodup :=
  t.map_all_perm.nodup_iff.2 (by decide)

/-! ## The board of the image -/

namespace Layout

/-- On a board with nothing outside the live points, only these count. -/
theorem count_board (l : Layout) (houtside : ∀ p, Point.onBoard p = false → l.content p = .empty)
    {x : Content} (hx : x ≠ .empty) :
    l.board.count x = Point.all.countP fun p => l.content p == x := by
  have hlist : l.board.toList = (List.range room).map l.content := by
    apply List.ext_getElem
    · simp
    · intro i hi _
      simp only [Vector.length_toList] at hi
      simp [content_eq_getElem l hi]
  -- the room of the board is the live points with a margin on both sides
  have hrange : List.range room = List.range 8 ++ Point.all ++ List.range' 32 8 := by decide
  have hzero : ∀ ps : List Point, (∀ p ∈ ps, Point.onBoard p = false) →
      (ps.countP fun p => l.content p == x) = 0 := by
    intro ps hps
    rw [List.countP_eq_zero]
    intro p hp
    rw [houtside p (hps p hp), beq_iff_eq]
    exact hx.symm
  have hcount : l.board.count x = (List.range room).countP fun p => l.content p == x := by
    rw [← Vector.count_toList, hlist, List.count, List.countP_map]
    rfl
  rw [hcount, hrange, List.countP_append, List.countP_append, hzero (List.range 8) (by decide),
    hzero (List.range' 32 8) (by decide), Nat.zero_add, Nat.add_zero]

variable {f : Point → Point} {g : Point → Content} {ps : List Point}

/-- Points that nothing is carried to hold what they held. -/
theorem content_foldl_of_not_mem (l : Layout) {q : Point} (hq : q ∉ ps.map f)
    (hf : ∀ p ∈ ps, f p < room) :
    { l with board := ps.foldl (fun b p => b.setIfInBounds (f p) (g p)) l.board }.content q =
      l.content q := by
  induction ps generalizing l with
  | nil => rfl
  | cons p ps ih =>
      rw [List.map_cons, List.mem_cons, not_or] at hq
      have hset := content_setBoard l { l with board := l.board.setIfInBounds (f p) (g p) } (f p)
        (g p) (hf p List.mem_cons_self) rfl q
      rw [if_neg hq.1] at hset
      rw [← hset]
      exact ih { l with board := l.board.setIfInBounds (f p) (g p) } hq.2
        fun r hr => hf r (List.mem_cons_of_mem p hr)

/-- The image of a point holds what is carried there, since no other point has that image. -/
theorem content_foldl_of_mem (l : Layout) (hnodup : (ps.map f).Nodup)
    (hf : ∀ p ∈ ps, f p < room) {p : Point} (hp : p ∈ ps) :
    { l with board := ps.foldl (fun b p => b.setIfInBounds (f p) (g p)) l.board }.content (f p) =
      g p := by
  induction ps generalizing l with
  | nil => cases hp
  | cons r ps ih =>
      rw [List.map_cons, List.nodup_cons] at hnodup
      have hrest : ∀ r ∈ ps, f r < room := fun r' hr => hf r' (List.mem_cons_of_mem r hr)
      rcases List.mem_cons.1 hp with rfl | hmem
      · -- no later point is written over this one
        have hkeep := content_foldl_of_not_mem (g := g)
          { l with board := l.board.setIfInBounds (f p) (g p) } hnodup.1 hrest
        have hset := content_setBoard l { l with board := l.board.setIfInBounds (f p) (g p) } (f p)
          (g p) (hf p List.mem_cons_self) rfl (f p)
        rw [if_pos rfl] at hset
        exact hkeep.trans hset
      · exact ih { l with board := l.board.setIfInBounds (f r) (g r) } hnodup.2 hrest hmem

end Layout

/-! ## Images -/

namespace Position

/-- What a symmetry leaves alone. -/
structure Carried (pos next : Position) : Prop extends SameStage pos next where
  onBoard : next.state.onBoard = pos.state.onBoard
  inHand : next.state.inHand = pos.state.inHand

theorem carried_moved (pos : Position) (t : Symmetry) : pos.Carried (pos.moved t) := by
  simp only [moved, mapState]
  exact ⟨⟨rfl, rfl, rfl, rfl, rfl, rfl⟩, rfl, rfl⟩

theorem carried_rebuild (pos : Position) : pos.Carried pos.rebuild :=
  ⟨⟨rfl, rfl, rfl, rfl, rfl, rfl⟩, rfl, rfl⟩

theorem Carried.trans {pos mid next : Position} (h : pos.Carried mid) (h' : mid.Carried next) :
    pos.Carried next :=
  ⟨⟨h'.variant.trans h.variant, h'.side.trans h.side, h'.owed.trans h.owed,
    h'.phase.trans h.phase, h'.action.trans h.action, h'.quiet.trans h.quiet⟩,
    h'.onBoard.trans h.onBoard, h'.inHand.trans h.inHand⟩

theorem carried_image (pos : Position) (t : Symmetry) : pos.Carried (pos.image t) :=
  (carried_moved pos t).trans (carried_rebuild (pos.moved t))

theorem contentAt_rebuild (pos : Position) (q : Point) :
    pos.rebuild.contentAt q = pos.contentAt q := rfl

theorem contentAt_moved (pos : Position) (t : Symmetry) (q : Point) :
    (pos.moved t).contentAt q = { pos.state.toLayout with
      board := Point.all.foldl (fun b p => b.setIfInBounds (t.onPoint p) (pos.contentAt p))
        pos.state.board }.content q := by
  unfold moved mapState contentAt
  rfl

theorem onPoint_lt_room (t : Symmetry) {p : Point} (hp : p ∈ Point.all) :
    t.onPoint p < Layout.room := by
  have hlt := Point.lt_of_onBoard (t.onBoard_onPoint ((Point.mem_all p).1 hp))
  exact Nat.lt_trans hlt (by decide)

/-- The image holds on the image of a point what the position holds on the point. -/
theorem contentAt_image (pos : Position) (t : Symmetry) {p : Point}
    (hp : Point.onBoard p = true) : (pos.image t).contentAt (t.onPoint p) = pos.contentAt p := by
  rw [image, contentAt_rebuild, contentAt_moved]
  exact Layout.content_foldl_of_mem pos.state.toLayout t.nodup_map_all
    (fun r hr => onPoint_lt_room t hr) ((Point.mem_all p).2 hp)

/-- Outside the live points the image holds what the position holds. -/
theorem contentAt_image_outside (pos : Position) (t : Symmetry) {q : Point}
    (hq : Point.onBoard q = false) : (pos.image t).contentAt q = pos.contentAt q := by
  have hnot : q ∉ Point.all.map t.onPoint := by
    intro hmem
    rw [t.map_all_perm.mem_iff, Point.mem_all, hq] at hmem
    cases hmem
  rw [image, contentAt_rebuild, contentAt_moved]
  exact Layout.content_foldl_of_not_mem pos.state.toLayout hnot fun r hr => onPoint_lt_room t hr

theorem keyExact_rebuild (pos : Position) : pos.rebuild.KeyExact := rfl

/-- Sets made anew agree with the contents. -/
theorem agrees_rebuild {pos : Position}
    (houtside : ∀ q, Point.onBoard q = false → pos.contentAt q = .empty) :
    pos.rebuild.state.Agrees :=
  Layout.agrees_rebuildSets houtside

variable {pos : Position}

/-- The image has as many men of each side. -/
theorem count_image (h : pos.Consistent) (t : Symmetry) (c : Side) :
    (pos.image t).state.board.count c.man = pos.state.board.count c.man := by
  have houtside : ∀ q, Point.onBoard q = false → (pos.image t).state.content q = .empty := by
    intro q hq
    exact (contentAt_image_outside pos t hq).trans (h.agrees.outside q hq)
  -- counting over the images of the points is counting over the points
  rw [Layout.count_board _ houtside (Side.man_ne_empty c),
    Layout.count_board _ h.agrees.outside (Side.man_ne_empty c),
    ← t.map_all_perm.countP_eq, List.countP_map]
  apply List.countP_congr
  intro p hp
  have himage := contentAt_image pos t ((Point.mem_all p).1 hp)
  rw [contentAt, contentAt] at himage
  rw [Function.comp_apply, himage]

/-- The image of a consistent position is consistent. -/
theorem Consistent.image (h : pos.Consistent) (t : Symmetry) : (pos.image t).Consistent := by
  have hcarried := carried_image pos t
  have hrule : (pos.image t).rule = pos.rule := congrArg Variant.rule hcarried.variant
  constructor
  case valid =>
    rw [hrule]
    exact h.valid
  case order =>
    rw [hrule, hcarried.variant]
    exact h.order
  case agrees =>
    apply agrees_rebuild
    intro q hq
    rw [← contentAt_rebuild, ← Position.image, contentAt_image_outside pos t hq]
    exact h.agrees.outside q hq
  case key => exact keyExact_rebuild _
  case counted =>
    constructor
    · intro c
      rw [count_image h t c, hcarried.onBoard]
      exact h.counted.onBoard c
    · intro c
      rw [hrule, hcarried.onBoard, hcarried.inHand]
      exact h.counted.within c

/-- The image of a sound position is sound. -/
theorem Sound.image (h : pos.Sound) (t : Symmetry) : (pos.image t).Sound := by
  refine ⟨h.toConsistent.image t, (carried_image pos t).toSameStage.stage h.stage ?_⟩
  intro hempty q
  cases hq : Point.onBoard q with
  | true =>
      obtain ⟨p, hp, rfl⟩ := t.exists_onPoint_eq hq
      rw [contentAt_image pos t hp]
      exact hempty p
  | false =>
      rw [contentAt_image_outside pos t hq]
      exact hempty q

end Position

end Morris
