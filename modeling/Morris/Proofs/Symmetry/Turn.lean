import Morris.Proofs.Progress.Turn
import Morris.Proofs.Symmetry.Mirror

/-!
# Changes seen through a symmetry

Every change that a move is made of takes mirrored positions to mirrored positions. A change that
neither reads nor writes what names points, such as giving the turn or ending the game, does so by
itself (`Position.Plain.mirrored`). A change of the layout does so if the new layouts are mirrored
(`Position.Mirrored.withLayout`): men are put down and taken off on a point and on its image, and
the marks are lifted from all points at once, in whatever order the sets list them. The end of
placing, the settling of a position and the resolution of a full board are then gone through branch
by branch, since both positions take the same one.
-/

set_option autoImplicit false

namespace Morris.Position

/-! ## Changes that name no point -/

/-- A change that leaves the variant and what names points alone and does not depend on the
latter. -/
structure Plain (F : Position → Position) : Prop where
  variant : ∀ pos, (F pos).variant = pos.variant
  placed : ∀ pos, (F pos).state.placed = pos.state.placed
  plain : ∀ pos, (F pos).state.plain = (F (pos.mapState State.plain)).state.plain

section Plain

variable {F : Position → Position}

/-- A change that names no point takes mirrored positions to mirrored positions. -/
theorem Plain.mirrored (hF : Plain F) {t : Symmetry} {pos q : Position} (h : Mirrored t pos q) :
    Mirrored t (F pos) (F q) where
  variant := by rw [hF.variant, hF.variant, h.variant]
  plain := by
    have hsame : q.mapState State.plain = pos.mapState State.plain := by
      rw [mapState, mapState, h.variant, h.plain]
    rw [hF.plain q, hsame, ← hF.plain pos]
  placed := by
    rw [hF.placed, hF.placed]
    exact h.placed

theorem plain_giveTurn (c : Side) : Plain (giveTurn · c) :=
  ⟨fun _ => rfl, fun _ => rfl, fun _ => rfl⟩

theorem plain_passTurn : Plain passTurn := ⟨fun _ => rfl, fun _ => rfl, fun _ => rfl⟩

theorem plain_keepTurn : Plain keepTurn := ⟨fun _ => rfl, fun _ => rfl, fun _ => rfl⟩

theorem plain_finish (winner : Colour) (ending : Ending) : Plain (finish · winner ending) :=
  ⟨fun _ => rfl, fun _ => rfl, fun _ => rfl⟩

theorem plain_oweFreeing : Plain oweFreeing := ⟨fun _ => rfl, fun _ => rfl, fun _ => rfl⟩

theorem plain_oweRemovals (n : Nat) : Plain (oweRemovals · n) :=
  ⟨fun _ => rfl, fun _ => rfl, fun _ => rfl⟩

theorem plain_raidHand (n : Nat) : Plain (raidHand · n) :=
  ⟨fun _ => rfl, fun _ => rfl, fun _ => rfl⟩

theorem plain_frees (frees : Bool) : Plain (mapState · fun s => { s with freesMover := frees }) :=
  ⟨fun _ => rfl, fun _ => rfl, fun _ => rfl⟩

theorem plain_setOwed (owed : PerSide Nat) : Plain (mapState · fun s => { s with owed := owed }) :=
  ⟨fun _ => rfl, fun _ => rfl, fun _ => rfl⟩

theorem plain_oweOne : Plain (mapState · fun s => { s with owed := s.owed.set s.side 1 }) :=
  ⟨fun _ => rfl, fun _ => rfl, fun _ => rfl⟩

theorem plain_setAction (action : Action) :
    Plain (mapState · fun s => { s with action := action }) :=
  ⟨fun _ => rfl, fun _ => rfl, fun _ => rfl⟩

end Plain

/-! ## Changes of the layout -/

/-- The position with another layout and another key. -/
def withLayout (pos : Position) (l : Layout) (k : Key) : Position :=
  pos.mapState fun s => { s with toLayout := l, key := k }

/-- Emptying points one by one changes the board, its sets and the key, and leaves the numbers of
men as they are. -/
theorem exists_foldl_vacate (ps : List Point) (pos : Position) : ∃ (l : Layout) (k : Key),
    ps.foldl vacate pos = pos.withLayout l k ∧ l.onBoard = pos.state.onBoard ∧
      l.inHand = pos.state.inHand := by
  induction ps generalizing pos with
  | nil => exact ⟨pos.state.toLayout, pos.state.key, rfl, rfl, rfl⟩
  | cons p ps ih =>
      obtain ⟨l, k, heq, honBoard, hinHand⟩ := ih (pos.vacate p)
      exact ⟨l, k, heq, honBoard, hinHand⟩

/-- Lifting the marks empties the marked points and leaves the others. -/
theorem contentAt_clearMarks {pos : Position} (hagrees : pos.state.Agrees) (q : Point) :
    pos.clearMarks.contentAt q =
      if pos.contentAt q = .marked then .empty else pos.contentAt q := by
  have hlt : ∀ p ∈ pos.state.marked.points, p < 32 := fun p hp =>
    Bitboard.lt_of_contains ((Bitboard.mem_points _ p).1 hp)
  rw [clearMarks, contentAt_foldl_vacate hlt]
  simp only [Bitboard.mem_points, hagrees.marked]
  rfl

namespace Mirrored

variable {t : Symmetry} {pos q : Position} {p : Point} (h : Mirrored t pos q)
include h

/-- Positions stay mirrored if they get mirrored layouts; the keys may be any. -/
theorem withLayout {l l' : Layout} (hagrees : l.Agrees) (hagrees' : l'.Agrees)
    (hcontent : ∀ p, Point.onBoard p = true → l'.content (t.onPoint p) = l.content p)
    (honBoard : l'.onBoard = l.onBoard) (hinHand : l'.inHand = l.inHand) (k k' : Key) :
    Mirrored t (pos.withLayout l k) (q.withLayout l' k') where
  variant := h.variant
  plain := by
    show ({ q.state.plain with onBoard := l'.onBoard, inHand := l'.inHand } : State) =
      { pos.state.plain with onBoard := l.onBoard, inHand := l.inHand }
    rw [h.plain, honBoard, hinHand]
  placed :=
    { h.placed with
      agrees := ⟨hagrees.outside, hagrees.men, hagrees.marked, hagrees.occupied⟩
      agrees' := ⟨hagrees'.outside, hagrees'.men, hagrees'.marked, hagrees'.occupied⟩
      content := hcontent }

/-- Putting down something on a free point and on its image keeps positions mirrored. -/
theorem fill {c : Content} (hp : Point.onBoard p = true) (hfree : pos.contentAt p = .empty)
    (hc : c ≠ .empty) : Mirrored t (pos.fill p c) (q.fill (t.onPoint p) c) := by
  have himage := t.onBoard_onPoint hp
  refine h.withLayout (h.agrees.fill hp hfree hc)
    (h.agrees'.fill himage ((h.content p).trans hfree) hc) ?_ h.onBoard h.inHand _ _
  intro r _
  rw [Layout.content_fill _ (Point.lt_of_onBoard hp), Layout.content_fill _
    (Point.lt_of_onBoard himage), show q.state.content (t.onPoint r) = _ from h.content r]
  simp only [t.onPoint_eq_iff hp]
  rfl

/-- Emptying a point and its image keeps positions mirrored. -/
theorem vacate (hp : Point.onBoard p = true) :
    Mirrored t (pos.vacate p) (q.vacate (t.onPoint p)) := by
  have hlt := Point.lt_of_onBoard hp
  have hlt' := Point.lt_of_onBoard (t.onBoard_onPoint hp)
  refine h.withLayout (h.agrees.vacate hlt) (h.agrees'.vacate hlt') ?_ h.onBoard h.inHand _ _
  intro r _
  rw [Layout.content_vacate _ hlt, Layout.content_vacate _ hlt',
    show q.state.content (t.onPoint r) = _ from h.content r]
  simp only [t.onPoint_eq_iff hp]
  rfl

/-- Lifting all marks keeps positions mirrored. -/
theorem clearMarks : Mirrored t pos.clearMarks q.clearMarks := by
  obtain ⟨l, k, heq, honBoard, hinHand⟩ := exists_foldl_vacate pos.state.marked.points pos
  obtain ⟨l', k', heq', honBoard', hinHand'⟩ := exists_foldl_vacate q.state.marked.points q
  have hagrees := (clearMarks_spec h.agrees).1.agrees h.agrees
  have hagrees' := (clearMarks_spec h.agrees').1.agrees h.agrees'
  have hcontent := contentAt_clearMarks h.agrees
  have hcontent' := contentAt_clearMarks h.agrees'
  rw [Position.clearMarks, heq] at hagrees hcontent ⊢
  rw [Position.clearMarks, heq'] at hagrees' hcontent' ⊢
  have honBoards : l'.onBoard = l.onBoard := by rw [honBoard, honBoard', h.onBoard]
  have hinHands : l'.inHand = l.inHand := by rw [hinHand, hinHand', h.inHand]
  refine h.withLayout hagrees hagrees' ?_ honBoards hinHands k k'
  intro r _
  have hr := hcontent' (t.onPoint r)
  rw [h.content, ← hcontent r] at hr
  exact hr

/-! ## The end of placing and of the game -/

theorem turnToRemoval : Mirrored t pos.turnToRemoval q.turnToRemoval := by
  simp only [Position.turnToRemoval, h.owed, h.side]
  split
  · exact h
  · exact (plain_setAction .remove).mirrored h

/-- The removals that the numbers of mills ask for are the same. -/
theorem oweForMills : Mirrored t pos.oweForMills q.oweForMills := by
  have howe : ∀ w b : Nat, Plain fun pos => (pos.mapState fun s =>
      { s with
        owed := removalsForMills w b
        takesOwn := .both (w == 0 && b == 0) }).refreshKey :=
    fun _ _ => ⟨fun _ => rfl, fun _ => rfl, fun _ => rfl⟩
  simp only [Position.oweForMills, h.millCount]
  exact (howe _ _).mirrored h

/-- Placing is done in both positions or in neither. -/
theorem isPlacingDone : q.isPlacingDone = pos.isPlacingDone := by
  simp only [Position.isPlacingDone, h.phase, h.inHand, h.owed]

/-- Placing ends in both positions or in neither, and what follows is mirrored again. -/
theorem endPlacing? : Option.Rel (Mirrored t) pos.endPlacing? q.endPlacing? := by
  simp only [Position.endPlacing?, h.isPlacingDone, h.rule]
  split
  · exact .none
  · split
    · exact .some ((plain_giveTurn _).mirrored h.clearMarks)
    · exact .some ((plain_giveTurn _).mirrored h.oweForMills)
    · split
      · exact .none
      · exact .some ((plain_giveTurn _).mirrored h)

theorem endPlacingOrPass : Mirrored t pos.endPlacingOrPass q.endPlacingOrPass := by
  have hended := h.endPlacing?
  simp only [Position.endPlacingOrPass]
  generalize pos.endPlacing? = ended, q.endPlacing? = ended' at hended
  cases hended with
  | none => exact plain_passTurn.mirrored h
  | some hended => exact hended

/-- A blocked side is treated alike in both positions. -/
theorem resolveBlocked : Mirrored t pos.resolveBlocked q.resolveBlocked := by
  simp only [Position.resolveBlocked, h.rule, h.side]
  split
  · exact (plain_finish _ _).mirrored h
  · exact (plain_finish _ _).mirrored h
  · exact (plain_passTurn.mirrored h).turnToRemoval
  · exact (plain_oweFreeing.mirrored ((plain_frees true).mirrored h)).turnToRemoval
  · exact (plain_oweFreeing.mirrored h).turnToRemoval

/-- Settling keeps positions mirrored. -/
theorem settle : Mirrored t pos.settle q.settle := by
  simp only [Position.settle, h.phase, h.isBeaten, h.rule, h.quiet, h.isEndgameLimitReached,
    h.action, h.isBlocked, h.side]
  split
  · exact h
  · exact h
  · split_ifs
    · exact (plain_finish _ _).mirrored h
    · exact (plain_finish _ _).mirrored h
    · exact (plain_finish _ _).mirrored h
    · exact (plain_finish _ _).mirrored h
    · exact h.resolveBlocked
    · exact h.turnToRemoval

/-- Resolving a full board keeps positions mirrored. -/
theorem resolveFullBoard : Mirrored t pos.resolveFullBoard q.resolveFullBoard := by
  have hfirst := (plain_giveTurn (firstMover pos.rule)).mirrored h
  simp only [Position.resolveFullBoard, h.rule]
  split
  · exact (plain_finish _ _).mirrored h
  · exact plain_passTurn.mirrored ((plain_setOwed _).mirrored h)
  · exact plain_keepTurn.mirrored ((plain_setOwed _).mirrored h)
  · exact plain_keepTurn.mirrored (plain_oweOne.mirrored hfirst)
  · exact (plain_finish _ _).mirrored h

end Mirrored

end Morris.Position
