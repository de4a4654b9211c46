import Mathlib.Data.List.Perm.Basic
import Morris.Proofs.Symmetry.Play

/-!
# Symmetries are automorphisms of the game

In a game of moves on live points, under a rule that is `Rule.OrderFree`, a symmetry of the board
may be applied before or after a move: the image of a move is accepted in the image of the position
if and only if the move is accepted, the position after it is the image of the position after the
move, and the legal moves of the image are the images of the legal moves
(`Position.PlayedBy.image_automorphism`).

Two positions that are mirrored in the same position and have the right key are equal
(`Position.Mirrored.unique`). The image of a position of the game is mirrored in it
(`Position.PlayedBy.mirrored_image`), and a move keeps that: what it makes of the image is mirrored
in what it makes of the position, hence its image.
-/

set_option autoImplicit false

namespace Morris

/-! ## States told by their parts -/

/-- A state is made up of its two parts and the key. -/
theorem State.eq_of_parts {s s' : State} (hplain : s.plain = s'.plain)
    (hplaced : s.placed = s'.placed) (hkey : s.key = s'.key) : s = s' := by
  rcases s with ⟨⟨_, _, _, _, _, _⟩, _, _, _, _, _, _, _, _, _, _, _, _, _, _, _⟩
  rcases s' with ⟨⟨_, _, _, _, _, _⟩, _, _, _, _, _, _, _, _, _, _, _, _, _, _, _⟩
  simp only [plain, placed, mk.injEq, Layout.mk.injEq] at hplain hplaced hkey ⊢
  simp only [hplain, hplaced, hkey, and_self]

namespace Position

variable {t : Symmetry} {pos q r : Position}

/-! ## The image is mirrored, and nothing else is -/

theorem Mirrored.contentAt_unique (h : Mirrored t pos q) (h' : Mirrored t pos r) (x : Point) :
    q.contentAt x = r.contentAt x := by
  cases hx : Point.onBoard x with
  | true =>
      obtain ⟨p, _, rfl⟩ := t.exists_onPoint_eq hx
      rw [h.content, h'.content]
  | false => exact (h.agrees'.outside x hx).trans (h'.agrees'.outside x hx).symm

/-- Positions with the right keys are told by what stands on the points, what is remembered of
points and what names no point. -/
theorem eq_of_contents (hvariant : q.variant = r.variant)
    (hplain : q.state.plain = r.state.plain) (hagrees : q.state.Agrees) (hagrees' : r.state.Agrees)
    (hcontent : ∀ p, q.contentAt p = r.contentAt p) (hmemory : q.state.memory = r.state.memory)
    (hq : q.KeyExact) (hr : r.KeyExact) : q = r := by
  obtain ⟨hboard, hmen, hmarked, hoccupied⟩ := hagrees.eq_of_content hagrees' hcontent
  simp only [State.memory, Memory.mk.injEq] at hmemory
  obtain ⟨hselected, hlast, hused, hmove⟩ := hmemory
  have hplaced : q.state.placed = r.state.placed := by
    simp only [State.placed, hboard, hmen, hmarked, hoccupied, hlast, hused, hselected, hmove]
  have hside : q.state.side = r.state.side := (congrArg State.side hplain :)
  have howed : q.state.owed = r.state.owed := (congrArg State.owed hplain :)
  have hown : q.state.takesOwn = r.state.takesOwn := (congrArg State.takesOwn hplain :)
  have hkey : q.state.key = r.state.key := by
    rw [hq, hr]
    simp only [keyFromScratch, sidedKey, owedBits, funext hcontent, hside, howed, hown]
  have hstate := State.eq_of_parts hplain hplaced hkey
  cases q
  cases r
  exact congr (congrArg Position.mk hvariant) hstate

/-- A symmetry makes one position of another, once the key is right. -/
theorem Mirrored.unique (h : Mirrored t pos q) (h' : Mirrored t pos r) (hq : q.KeyExact)
    (hr : r.KeyExact) : q = r := by
  apply eq_of_contents (h.variant.trans h'.variant.symm) (h.plain.trans h'.plain.symm) h.agrees'
    h'.agrees' (h.contentAt_unique h') _ hq hr
  have hlast : q.state.lastMill = r.state.lastMill :=
    PerSide.eq_of_get fun c => (h.lastMill c).trans (h'.lastMill c).symm
  have hused : q.state.usedLines = r.state.usedLines :=
    PerSide.eq_of_get fun c => (h.usedLines c).eq_onSet.trans (h'.usedLines c).eq_onSet.symm
  have hmove : q.state.lastMove = r.state.lastMove :=
    h.placed.lastMove.trans h'.placed.lastMove.symm
  rw [State.memory, State.memory, h.selected, h'.selected, hlast, hused, hmove]

/-- Besides the layout and the key, the image changes only what is remembered of points. -/
theorem exists_image_eq (pos : Position) (t : Symmetry) : ∃ (l : Layout) (k : Key),
    l.onBoard = pos.state.onBoard ∧ l.inHand = pos.state.inHand ∧
      (pos.image t).state =
        { pos.state with
          toLayout := l
          key := k
          selected := pos.state.selected.map t.onPoint
          lastMill := pos.state.lastMill.map (Option.map t.onEnds)
          usedLines := pos.state.usedLines.map t.onSet
          lastMove := t.onMove pos.state.lastMove } := by
  unfold image rebuild moved mapState
  refine ⟨_, _, ?_, ?_, rfl⟩
  · simp only [Layout.rebuildSets]
  · simp only [Layout.rebuildSets]

/-- The image of a sound position is mirrored in it, if the lines scored with are live. -/
theorem Sound.mirrored_image (h : pos.Sound)
    (hused : ∀ c p, (pos.state.usedLines.get c).contains p = true → Point.onBoard p = true)
    (t : Symmetry) : Mirrored t pos (pos.image t) := by
  have hagrees := h.agrees
  have hagrees' := (h.image t).agrees
  have hcontent : ∀ p, Point.onBoard p = true →
      (pos.image t).contentAt (t.onPoint p) = pos.contentAt p :=
    fun _ hp => contentAt_image pos t hp
  have hvariant := (carried_image pos t).variant
  obtain ⟨l, k, honBoard, hinHand, heq⟩ := exists_image_eq pos t
  -- from here the image is known only as the state with its points renamed and sets and key rebuilt
  generalize pos.image t = q at *
  obtain ⟨v, s⟩ := q
  dsimp only at heq hvariant
  subst heq
  constructor
  case variant => exact hvariant
  case plain =>
    simp only [State.plain, honBoard, hinHand]
  case placed =>
    constructor
    case agrees => exact ⟨hagrees.outside, hagrees.men, hagrees.marked, hagrees.occupied⟩
    case agrees' => exact ⟨hagrees'.outside, hagrees'.men, hagrees'.marked, hagrees'.occupied⟩
    case content => exact hcontent
    case selected => rfl
    case lastMill => exact fun c => PerSide.get_map _ pos.state.lastMill c
    case usedLines =>
      intro c
      show t.Carries _ ((pos.state.usedLines.map t.onSet).get c)
      rw [PerSide.get_map]
      exact Symmetry.carries_onSet (hused c)
    case lastMove => rfl

/-! ## Legal moves -/

section LegalMoves

variable (h : Mirrored t pos q)
  (horder : pos.variant.order.Perm (Board.order pos.rule.hasDiagonals))
include h horder

/-- The order of points is the image of itself, up to a permutation. -/
theorem Mirrored.order_perm : q.variant.order.Perm (pos.variant.order.map t.onPoint) := by
  rw [h.variant]
  exact horder.trans ((t.map_order_perm _).symm.trans (horder.map t.onPoint).symm)

theorem Mirrored.reverse_order_perm :
    q.variant.order.reverse.Perm (pos.variant.order.reverse.map t.onPoint) :=
  (List.reverse_perm _).trans
    ((h.order_perm horder).trans ((List.reverse_perm _).symm.map t.onPoint))

omit h in
theorem onBoard_of_mem_order {p : Point} (hp : p ∈ pos.variant.order) : Point.onBoard p = true :=
  (Board.mem_order _ p).1 (horder.mem_iff.1 hp)

theorem Mirrored.placements_perm : q.placements.Perm (pos.placements.map t.onMove) := by
  simp only [placements, h.inHand, h.side]
  split
  · exact .nil
  · have hfree : (q.variant.order.filter fun p => q.contentAt p == .empty).Perm
        ((pos.variant.order.filter fun p => pos.contentAt p == .empty).map t.onPoint) :=
      filter_perm_map (h.order_perm horder) fun p _ => by rw [h.content]
    apply t.map_moves_perm hfree
    intro p hp
    exact t.onMove_place (onBoard_of_mem_order horder (List.mem_filter.1 hp).1)

theorem Mirrored.slideTargets_perm {a : Point} (ha : Point.onBoard a = true) :
    (q.slideTargets (t.onPoint a)).Perm ((pos.slideTargets a).map t.onPoint) := by
  simp only [slideTargets, h.side, h.canFly]
  split
  · apply filter_perm_map (h.order_perm horder)
    intro b hb
    rw [h.content, h.returnsToMill ha (onBoard_of_mem_order horder hb)]
  · have hneighbours := t.neighbours_perm ha pos.rule.hasDiagonals
    rw [neighbours, neighbours, h.rule]
    apply filter_perm_map hneighbours
    intro b hb
    rw [h.content, h.isBarredSlide ha (Board.of_mem_neighbours ha hb).1]

omit h in
theorem of_mem_slideTargets {a b : Point} (ha : Point.onBoard a = true)
    (hb : b ∈ pos.slideTargets a) : Point.onBoard b = true ∧ pos.contentAt b = .empty := by
  simp only [slideTargets] at hb
  split at hb
  · simp only [List.mem_filter, Bool.and_eq_true, beq_iff_eq] at hb
    exact ⟨onBoard_of_mem_order horder hb.1, hb.2.1⟩
  · simp only [List.mem_filter, Bool.and_eq_true, beq_iff_eq] at hb
    exact ⟨(Board.of_mem_neighbours ha hb.1).1, hb.2.1⟩

theorem Mirrored.slides_perm : q.slides.Perm (pos.slides.map t.onMove) := by
  simp only [slides, h.phase, h.rule]
  split
  · exact .nil
  · have hmen : (q.variant.order.reverse.filter fun a => q.contentAt a == q.state.side.man).Perm
        ((pos.variant.order.reverse.filter fun a =>
          pos.contentAt a == pos.state.side.man).map t.onPoint) :=
      filter_perm_map (h.reverse_order_perm horder) fun p _ => by rw [h.content, h.side]
    refine (hmen.flatMap_right _).trans ?_
    rw [List.flatMap_map, List.map_flatMap]
    apply List.Perm.flatMap_left
    intro a ha
    obtain ⟨hmem, hman⟩ := List.mem_filter.1 ha
    have ha := onBoard_of_mem_order horder (List.mem_reverse.1 hmem)
    apply t.map_moves_perm (h.slideTargets_perm horder ha)
    intro b hb
    -- a man is slid to an empty point, which is not its own
    obtain ⟨hb, hfree⟩ := of_mem_slideTargets horder ha hb
    apply t.onMove_slide ha hb
    rintro rfl
    rw [hfree] at hman
    exact Side.man_ne_empty _ (beq_iff_eq.1 hman).symm

theorem Mirrored.removals_perm : q.removals.Perm (pos.removals.map t.onMove) := by
  have hmen : (q.variant.order.reverse.filter fun p => q.contentAt p == pos.removalTarget.man).Perm
      ((pos.variant.order.reverse.filter fun p =>
        pos.contentAt p == pos.removalTarget.man).map t.onPoint) :=
    filter_perm_map (h.reverse_order_perm horder) fun p _ => by rw [h.content]
  have hlive : ∀ p ∈ pos.variant.order.reverse.filter fun p =>
      pos.contentAt p == pos.removalTarget.man, Point.onBoard p = true := fun p hp =>
    onBoard_of_mem_order horder (List.mem_reverse.1 (List.mem_filter.1 hp).1)
  have hremove : ∀ {ps ps' : List Point}, ps'.Perm (ps.map t.onPoint) →
      (∀ p ∈ ps, Point.onBoard p = true) →
        (ps'.map Move.remove).Perm ((ps.map Move.remove).map t.onMove) := fun hperm hps =>
    t.map_moves_perm hperm fun p hp => t.onMove_remove (hps p hp)
  simp only [removals, h.removalTarget, h.isFreeingRemoval, h.rule, h.allInMills, h.takesOwn,
    h.side]
  split
  · refine hremove (filter_perm_map hmen fun p hp => ?_)
      fun p hp => hlive p (List.mem_filter.1 hp).1
    rw [h.touches (hlive p hp)]
  · split
    · exact hremove hmen hlive
    · refine hremove (filter_perm_map hmen fun p hp => ?_)
        fun p hp => hlive p (List.mem_filter.1 hp).1
      rw [h.millsAt (hlive p hp)]

/-- The legal moves of a mirrored position are the images of the legal moves. -/
theorem Mirrored.legalMoves_perm : q.legalMoves.Perm (pos.legalMoves.map t.onMove) := by
  simp only [legalMoves, h.action, h.phase]
  split
  · exact h.removals_perm horder
  · rw [List.map_append]
    exact (h.placements_perm horder).append (h.slides_perm horder)
  · rw [List.map_append]
    exact (h.placements_perm horder).append (h.slides_perm horder)
  · exact h.slides_perm horder
  · exact .nil

end LegalMoves

/-! ## Games -/

variable {rule : Rule}

theorem Sound.empty_of_ready (h : pos.Sound) (hready : pos.state.phase = .ready) (p : Point) :
    pos.contentAt p = .empty :=
  (h.stage.untouched_of_ready hready).content p

/-- The image of a position of the game is mirrored in it. -/
theorem PlayedBy.mirrored_image (h : PlayedBy Move.OnBoard rule pos) (hrule : rule.OrderFree)
    (t : Symmetry) : Mirrored t pos (pos.image t) := by
  induction h with
  | begin hbegin =>
      have hbegun : PlayedBy Move.OnBoard rule _ := .begin hbegin
      have hsound := hbegun.sound
      obtain ⟨v, _, rfl⟩ := map_eq_ok_iff.1 hbegin
      apply hsound.mirrored_image
      intro c p hp
      have hnone : (ofVariant v).state.usedLines.get c = .empty := PerSide.get_both _ c
      rw [hnone, Bitboard.contains_empty] at hp
      cases hp
  | @move pos next m hplayed hm hnext ih =>
      have hsound := (hplayed.move hm hnext).sound
      have halike := ih.apply (hplayed.rule_eq ▸ hrule) hplayed.sound.empty_of_ready hm
      rw [hnext] at halike
      -- the lines scored with are made of live points, since they are carried to others
      obtain ⟨_, _, hmirrored⟩ := halike.exists_of_ok
      exact hsound.mirrored_image (fun c => (hmirrored.usedLines c).live) t

/-- In a game of accepted moves on live points, a symmetry of the board may be applied before or
after a move: the image of a move is accepted exactly if the move is, and the position after it, key
included, is the image of the position after the move. The legal moves of the image are the images
of the legal moves, up to their order. -/
theorem PlayedBy.image_automorphism (h : PlayedBy Move.OnBoard rule pos) (hrule : rule.OrderFree)
    (t : Symmetry) :
    (∀ m, m.OnBoard → ((pos.image t).apply (t.onMove m)).toOption =
        (pos.apply m).toOption.map fun next => next.image t) ∧
      (pos.image t).legalMoves.Perm (pos.legalMoves.map t.onMove) := by
  have hmirrored := h.mirrored_image hrule t
  refine ⟨fun m hm => ?_, hmirrored.legalMoves_perm h.sound.order⟩
  have halike := hmirrored.apply (h.rule_eq ▸ hrule) h.sound.empty_of_ready hm
  apply halike.toOption_eq
  intro next next' hnext hnext' hmirrored'
  have hkey := ((h.sound.image t).apply hnext').key
  have hplayed := h.move hm hnext
  exact hmirrored'.unique (hplayed.mirrored_image hrule t) hkey (hplayed.sound.image t).key

/-- Morris with nine men on a board with diagonals, where a line scores once. -/
def scoringOnce : Rule where
  hasDiagonals := true
  oneTimeMills := true

/-- White closes a mill on the inner ring. -/
def innerMill : List Move := [.place 8, .place 24, .place 9, .place 26, .place 15]

/-- The case of a removal after a mill, seen through a quarter turn. -/
theorem image_automorphism_quarterTurn : scoringOnce.OrderFree ∧ (Move.remove 24).OnBoard ∧
    ∃ pos next, PlayedBy Move.OnBoard scoringOnce pos ∧ pos.apply (.remove 24) = .ok next ∧
      ((pos.image .quarterTurn).apply (.remove 26)).toOption = some (next.image .quarterTurn) ∧
      (pos.image .quarterTurn).legalMoves.Perm [.remove 28, .remove 26] := by
  have hrule : scoringOnce.OrderFree := by
    rintro ⟨-, hseveral⟩
    cases hseveral
  have hspec : ((ofVariant (.ofRule scoringOnce)).applyAll? innerMill).any (fun pos =>
      decide ((pos.apply (.remove 24)).toOption.isSome = true ∧
        pos.legalMoves = [.remove 26, .remove 24])) = true := by
    decide +kernel
  obtain ⟨pos, hpos, hfacts⟩ := (Option.any_eq_true _ _).1 hspec
  obtain ⟨haccepted, hmoves⟩ := of_decide_eq_true hfacts
  obtain ⟨next, hnext⟩ := Option.isSome_iff_exists.1 haccepted
  have hinner : ∀ m ∈ innerMill, m.OnBoard := by
    simp only [innerMill, List.forall_mem_cons, List.not_mem_nil, false_implies, implies_true,
      and_true]
    exact ⟨.place rfl, .place rfl, .place rfl, .place rfl, .place rfl⟩
  have hplayed : PlayedBy Move.OnBoard scoringOnce pos := (PlayedBy.begin rfl).applyAll hinner hpos
  obtain ⟨happly, hlegal⟩ := hplayed.image_automorphism hrule .quarterTurn
  have hremove := happly (.remove 24) (.remove rfl)
  rw [hnext] at hremove
  rw [hmoves] at hlegal
  exact ⟨hrule, .remove rfl, pos, next, hplayed, toOption_eq_some_iff.1 hnext, hremove, hlegal⟩

end Position

end Morris
