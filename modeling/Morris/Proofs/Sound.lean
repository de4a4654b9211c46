import Morris.Proofs.Ply

/-!
# Sound positions

A position is `Consistent` when its rule is valid, the forms of its board agree, its men are counted
and its key is the one computed from scratch. It is `Sound` when in addition the stage of the game
fits. Every act of a player takes a sound position to a sound one; the lemmas follow the acts: the
men move (`Consistent.drop`, `Consistent.shift`, `Consistent.takeMan`), and then the consequences
are drawn (`Consistent.of_aftermath`).
-/

set_option autoImplicit false

namespace Morris.Position

/-! ## Sound positions -/

/-- A position whose parts tell the same. -/
structure Consistent (pos : Position) : Prop where
  valid : pos.rule.Valid
  order : pos.variant.order.Perm (Board.order pos.rule.hasDiagonals)
  agrees : pos.state.Agrees
  counted : pos.state.Counted pos.rule.pieceCount
  key : pos.KeyExact

/-- A consistent position in a stage of the game that fits. -/
structure Sound (pos : Position) : Prop extends Consistent pos where
  stage : pos.Stage

namespace Consistent

variable {pos next : Position}

theorem moveLimit_pos (h : pos.Consistent) : 0 < pos.rule.moveLimit :=
  ((Rule.valid_iff pos.rule).1 h.valid).2.2.2.1

/-- The consequences of a move keep a position consistent if they keep the key right. -/
theorem of_aftermath (h : pos.Consistent) (ha : pos.Aftermath next) (hkey : next.KeyExact) :
    next.Consistent := by
  have hrule : next.rule = pos.rule := congrArg Variant.rule ha.variant
  constructor
  case valid =>
    rw [hrule]
    exact h.valid
  case order =>
    rw [hrule, ha.variant]
    exact h.order
  case agrees => exact ha.agrees h.agrees
  case counted =>
    rw [hrule]
    exact ha.counted h.counted
  case key => exact hkey

/-- A change of turn keeps a position consistent if it keeps the key right. -/
theorem of_sameMen (h : pos.Consistent) (hsame : pos.SameMen next) (hkey : next.KeyExact) :
    next.Consistent :=
  h.of_aftermath hsame.aftermath hkey

/-- Looking for mills keeps a position consistent. -/
theorem scoreMills (h : pos.Consistent) (p : Point) (c : Side) :
    (pos.scoreMills p c).2.Consistent := by
  have hsame := sameTurn_scoreMills pos p c
  exact h.of_sameMen hsame.toSameMen (hsame.keyExact h.key)

end Consistent

/-- Men stand on live points only. -/
theorem Consistent.onBoard_of_man {pos : Position} (h : pos.Consistent) {p : Point} {c : Side}
    (hp : pos.contentAt p = c.man) : Point.onBoard p = true := by
  apply h.agrees.onBoard_of_content
  show pos.contentAt p ≠ .empty
  rw [hp]
  exact Side.man_ne_empty c

/-! ## Moving the men -/

namespace Consistent

variable {pos : Position} {p : Point}

/-- Putting a man of the hand on a free point keeps a position consistent. -/
theorem drop (h : pos.Consistent) (hp : Point.onBoard p = true)
    (hfree : pos.contentAt p = .empty) (hhand : pos.state.inHand.get pos.state.side ≠ 0) :
    (pos.drop p).Consistent := by
  have hagrees := h.agrees.fill hp hfree (Side.man_ne_empty pos.state.side)
  constructor
  case valid => exact h.valid
  case order => exact h.order
  case agrees => exact ⟨hagrees.outside, hagrees.men, hagrees.marked, hagrees.occupied⟩
  case key => exact keyExact_fill h.key hp hfree pos.state.side.man
  case counted =>
    constructor
    · intro c
      show (pos.state.onBoard.update pos.state.side (· + 1)).get c =
        (pos.state.toLayout.fill p pos.state.side.man).board.count c.man
      rw [Layout.count_fill _ (Point.lt_of_onBoard hp) hfree _ (Side.man_ne_empty c),
        PerSide.get_update, ← h.counted.onBoard c]
      -- the man counted on the board is the man that has been put there
      by_cases hc : c = pos.state.side
      · simp [hc]
      · have hne : pos.state.side ≠ c := fun e => hc e.symm
        simp [hc, hne, Side.man_inj]
    · intro c
      show (pos.state.onBoard.update pos.state.side (· + 1)).get c +
        (pos.state.inHand.update pos.state.side (· - 1)).get c ≤ pos.rule.pieceCount
      have hwithin := h.counted.within c
      rw [PerSide.get_update, PerSide.get_update]
      by_cases hc : c = pos.state.side
      -- the man comes out of the hand, so the sum stays
      · subst hc
        simp only [if_true]
        omega
      · simp only [hc, if_false]
        exact hwithin

/-- Moving an own man to a free point keeps a position consistent. -/
theorem shift {a b : Point} (h : pos.Consistent) (ha : pos.contentAt a = pos.state.side.man)
    (hb : Point.onBoard b = true) (hfree : pos.contentAt b = .empty) :
    (pos.shift a b).Consistent := by
  have hlt := Point.lt_of_onBoard (h.onBoard_of_man ha)
  have hfree' : (pos.vacate a).contentAt b = .empty := by
    rw [contentAt_vacate pos hlt, hfree, ite_self]
  have hagrees := (h.agrees.vacate hlt).fill hb hfree' (Side.man_ne_empty pos.state.side)
  constructor
  case valid => exact h.valid
  case order => exact h.order
  case agrees => exact ⟨hagrees.outside, hagrees.men, hagrees.marked, hagrees.occupied⟩
  case key =>
    exact keyExact_fill (keyExact_vacate h.key (h.onBoard_of_man ha)) hb hfree' pos.state.side.man
  case counted =>
    constructor
    · intro c
      show pos.state.onBoard.get c =
        ((pos.state.toLayout.vacate a).fill b pos.state.side.man).board.count c.man
      -- the man taken off one point is the man put on the other
      have hoff := Layout.count_vacate pos.state.toLayout hlt (Side.man_ne_empty c)
      have hon := Layout.count_fill (pos.state.toLayout.vacate a) (Point.lt_of_onBoard hb) hfree'
        pos.state.side.man (Side.man_ne_empty c)
      rw [show pos.state.content a = pos.state.side.man from ha] at hoff
      rw [hon, hoff, ← h.counted.onBoard c]
    · exact h.counted.within

/-- What stands on a point that a removal clears is gone, and a mark may stand in its place. -/
theorem clearPoint_spec (h : pos.Consistent) (hp : Point.onBoard p = true) :
    (pos.clearPoint p).state.Agrees ∧ (pos.clearPoint p).KeyExact ∧
      ∀ c : Side, (pos.clearPoint p).state.board.count c.man +
        (if pos.contentAt p = c.man then 1 else 0) = pos.state.board.count c.man := by
  have hlt := Point.lt_of_onBoard hp
  have hcount : ∀ c : Side, (pos.vacate p).state.board.count c.man +
      (if pos.contentAt p = c.man then 1 else 0) = pos.state.board.count c.man :=
    fun c => Layout.count_vacate pos.state.toLayout hlt (Side.man_ne_empty c)
  have hfree : (pos.vacate p).contentAt p = .empty := by
    rw [contentAt_vacate pos hlt, if_pos rfl]
  have hagrees : (pos.vacate p).state.Agrees := h.agrees.vacate hlt
  have hkey := keyExact_vacate h.key hp
  simp only [clearPoint]
  split
  · refine ⟨hagrees.fill hp hfree (by decide), keyExact_fill hkey hp hfree .marked, ?_⟩
    intro c
    -- a mark in the place of the man is not counted among men
    have hmark := Layout.count_fill (pos.vacate p).state.toLayout hlt hfree .marked
      (Side.man_ne_empty c)
    rw [if_neg (Side.man_ne_marked c).symm, Nat.add_zero] at hmark
    rw [← hcount c, ← hmark]
    rfl
  · exact ⟨hagrees, hkey, hcount⟩

/-- Taking a man of the side it is counted for keeps a position consistent. -/
theorem takeMan {target : Side} (h : pos.Consistent) (hp : pos.contentAt p = target.man) :
    (pos.takeMan p target).Consistent := by
  obtain ⟨hagrees, hkey, hcount⟩ := h.clearPoint_spec (h.onBoard_of_man hp)
  have hvariant := (takeMan_frame pos p target).variant
  have hrule : (pos.takeMan p target).rule = pos.rule := congrArg Variant.rule hvariant
  constructor
  case valid =>
    rw [hrule]
    exact h.valid
  case order =>
    rw [hrule, hvariant]
    exact h.order
  case agrees => exact ⟨hagrees.outside, hagrees.men, hagrees.marked, hagrees.occupied⟩
  case key =>
    -- the removal is no longer owed, which the key is told last
    apply keyExact_refreshKey
    exact hkey.follows
  case counted =>
    have honBoard := (takeMan_frame pos p target).onBoard
    have hinHand := (takeMan_frame pos p target).inHand
    rw [hrule]
    constructor
    · intro c
      have hc := hcount c
      have hold := h.counted.onBoard c
      rw [honBoard, PerSide.get_update]
      show _ = (pos.clearPoint p).state.board.count c.man
      rw [hp] at hc
      by_cases hct : c = target
      · subst hct
        rw [if_pos rfl] at hc ⊢
        omega
      · have hne : target.man ≠ c.man := fun e => hct (Side.man_inj.1 e).symm
        rw [if_neg hne] at hc
        rw [if_neg hct]
        omega
    · intro c
      have hwithin := h.counted.within c
      rw [honBoard, hinHand, PerSide.get_update]
      split <;> omega

end Consistent

/-- A placement on a free point, with all that follows from it, leads to a sound position. -/
theorem sound_placeMan {pos : Position} (h : pos.Consistent)
    (hphase : pos.state.phase = .placing) (haction : pos.state.action = .place) {p : Point}
    (hp : Point.onBoard p = true) (hfree : pos.contentAt p = .empty)
    (hhand : pos.state.inHand.get pos.state.side ≠ 0) : (pos.placeMan p).2.Sound := by
  obtain ⟨n, hn⟩ := placeMan_snd pos p
  have hclosed := (h.drop hp hfree hhand).scoreMills p pos.state.side
  have hsame := sameTurn_scoreMills (pos.drop p) p pos.state.side
  have hafter := afterDrop_cases ((pos.drop p).scoreMills p pos.state.side).2 n
  rw [hn]
  refine ⟨hclosed.of_aftermath (hafter.aftermath hclosed.agrees)
    (hafter.keyExact hclosed.agrees hclosed.key), ?_⟩
  apply hafter.stage
  · rw [hsame.phase]
    exact hphase
  · rw [hsame.action]
    exact haction
  · rw [hsame.quiet, hsame.rule]
    exact h.moveLimit_pos

/-- A slide to a free point, with all that follows from it, leads to a sound position. -/
theorem sound_slideMan {pos : Position} (h : pos.Consistent)
    (hphase : pos.state.phase = .placing ∨ pos.state.phase = .moving)
    (hquiet : pos.state.quiet < pos.rule.moveLimit) {a b : Point}
    (ha : pos.contentAt a = pos.state.side.man) (hb : Point.onBoard b = true)
    (hfree : pos.contentAt b = .empty) : (pos.slideMan a b).2.Sound := by
  obtain ⟨opened, n, hn⟩ := slideMan_snd pos a b
  have hclosed := (h.shift ha hb hfree).scoreMills b pos.state.side
  have hsame := sameTurn_scoreMills (pos.shift a b) b pos.state.side
  have hafter := afterShift_cases ((pos.shift a b).scoreMills b pos.state.side).2 a b opened n
  rw [hn]
  refine ⟨hclosed.of_sameMen hafter.sameMen (hafter.keyExact hclosed.key), ?_⟩
  apply hafter.stage
  · rw [hsame.phase]
    exact hphase
  · rw [hsame.quiet, hsame.rule]
    exact hquiet

/-! ## Beginning -/

theorem content_initial (pieceCount : Nat) (p : Point) :
    (State.initial pieceCount).content p = .empty := by
  rw [Layout.content, State.initial, Vector.getElem?_replicate]
  split <;> rfl

/-- On the empty board, the sets agree with the contents. -/
theorem agrees_initial (pieceCount : Nat) : (State.initial pieceCount).Agrees := by
  constructor
  case outside => exact fun p _ => content_initial pieceCount p
  case men =>
    intro c p
    have hmen : ((State.initial pieceCount).men.get c).contains p = false := by
      cases c <;> exact Bitboard.contains_empty p
    rw [hmen, content_initial]
    exact ⟨nofun, fun h => absurd h.symm (Side.man_ne_empty c)⟩
  case marked =>
    intro p
    rw [content_initial, show (State.initial pieceCount).marked.contains p = false from
      Bitboard.contains_empty p]
    exact ⟨nofun, nofun⟩
  case occupied =>
    intro p
    rw [content_initial, show (State.initial pieceCount).occupied.contains p = false from
      Bitboard.contains_empty p]
    exact ⟨nofun, fun h => absurd rfl h⟩

theorem counted_initial (pieceCount : Nat) : (State.initial pieceCount).Counted pieceCount := by
  constructor
  · intro c
    cases c <;> rfl
  · intro c
    cases c <;> exact Nat.le_of_eq (Nat.zero_add pieceCount)

/-- The position before the first move of a variant is sound. -/
theorem sound_ofVariant {v : Variant} (hvalid : v.rule.Valid)
    (horder : v.order.Perm (Board.order v.rule.hasDiagonals)) : (ofVariant v).Sound := by
  refine ⟨⟨hvalid, horder, agrees_initial _, counted_initial _, ?_⟩, ?_⟩
  · have hempty : (ofVariant v).contentAt = fun _ => .empty := funext (content_initial _)
    have hboard : Key.ofBoard (fun _ => .empty) = 0 := by decide
    have hsided : (ofVariant v).sidedKey = 0 := by
      rw [sidedKey, hempty, hboard]
      rfl
    rw [KeyExact, keyFromScratch, hsided]
    exact (show (0 : Key) = Key.withOwed 0 0 by decide)
  · exact .untouched ⟨rfl, rfl, fun c => PerSide.get_both 0 c, rfl, content_initial _⟩

namespace Sound

variable {pos next : Position} {p : Point}

theorem reset (h : pos.Sound) : pos.reset.Sound := sound_ofVariant h.valid h.order

theorem finish (h : pos.Sound) (winner : Colour) (ending : Ending) :
    (pos.finish winner ending).Sound :=
  ⟨h.of_sameMen (sameMen_finish pos winner ending) (keyExact_finish h.key winner ending),
    .finished rfl⟩

theorem begin (h : pos.Sound) (hready : pos.state.phase = .ready) :
    (pos.mapState fun s => { s with phase := .placing }).Sound := by
  have huntouched := h.stage.untouched_of_ready hready
  refine ⟨h.of_sameMen ⟨rfl, rfl, rfl⟩ h.key, .going ⟨Or.inl rfl, fun _ => ?_, ?_⟩ (Or.inl ?_)⟩
  · show pos.state.action ≠ .select
    rw [huntouched.action]
    nofun
  · show pos.state.action = .remove ↔ pos.state.owed.get pos.state.side ≠ 0
    rw [huntouched.action, huntouched.owes]
    exact ⟨nofun, fun h => absurd rfl h⟩
  · show pos.state.quiet < pos.rule.moveLimit
    rw [huntouched.quiet]
    exact h.moveLimit_pos

theorem start (h : pos.Sound) : pos.start.Sound := by
  simp only [Position.start]
  split
  · exact h.begin ‹_›
  · exact h.reset.begin rfl
  · exact h

/-- Settling keeps a position sound. -/
theorem settle (h : pos.Sound) : pos.settle.Sound := by
  refine ⟨h.of_sameMen (sameMen_settle pos) (keyExact_settle h.key), ?_⟩
  cases h.stage with
  | untouched huntouched =>
      have hidle : pos.settle = pos := by
        simp only [Position.settle]
        rw [huntouched.phase]
      rw [hidle]
      exact h.stage
  | going hturned _ =>
      exact (settled_settle hturned.inProgress hturned.placing hturned.owes.1).stage
  | finished hover =>
      have hidle : pos.settle = pos := by
        simp only [Position.settle]
        rw [hover]
      rw [hidle]
      exact h.stage

/-- Pointing at a point keeps a position sound, whichever act it comes to. -/
theorem putting (h : pos.Sound) (hput : pos.Putting p next) : next.Sound := by
  cases hput with
  | placed hphase hp hfree hhand =>
      have hstart : pos.start = pos.mapState fun s => { s with phase := .placing } :=
        start_of_placing (hphase.imp_right And.left)
      have haction : pos.state.action = .place := by
        rcases hphase with hready | ⟨_, haction, _⟩
        · exact (h.stage.untouched_of_ready hready).action
        · exact haction
      have hsound := h.start
      rw [hstart] at hsound ⊢
      exact sound_placeMan hsound.toConsistent rfl haction hp hfree hhand
  | picked hplacing hmay hp hman =>
      have hturned := (h.stage.turned_of (Or.inl hplacing))
      exact ⟨h.of_sameMen ⟨rfl, rfl, rfl⟩ h.key,
        .going ⟨hturned.1.inProgress, hturned.1.placing, hturned.1.owes⟩ hturned.2⟩
  | slid hphase haction hp ha hslide =>
      have hquiet := h.stage.quiet_lt hphase (by rw [haction]; decide)
      exact sound_slideMan h.toConsistent hphase hquiet hslide.man hp hslide.free

theorem put_cases (h : pos.Sound) {r : Nat × Position} (hr : pos.put p = .ok r) :
    pos.Putting p r.2 :=
  putting_of_put (fun hready => (h.stage.untouched_of_ready hready).content p) hr

theorem put (h : pos.Sound) {r : Nat × Position} (hr : pos.put p = .ok r) : r.2.Sound :=
  h.putting (h.put_cases hr)

end Sound

/-! ## Moves -/

theorem Sound.of_sameTurn {pos next : Position} (h : pos.Sound) (hsame : pos.SameTurn next) :
    next.Sound :=
  ⟨h.of_sameMen hsame.toSameMen (hsame.keyExact h.key),
    hsame.toSameStage.stage h.stage fun hempty q => (hsame.content q).trans (hempty q)⟩

namespace Sound

variable {pos next : Position} {p : Point}

theorem select (h : pos.Sound) (hnext : pos.select p = .ok next) : next.Sound := by
  obtain ⟨hphase, haction, _, _, rfl⟩ := select_ok_iff.1 hnext
  have hprogress : pos.state.phase = .placing ∨ pos.state.phase = .moving := by
    rcases hphase with hmoving | ⟨hplacing, _⟩
    · exact Or.inr hmoving
    · exact Or.inl hplacing
  have hturned := (h.stage.turned_of hprogress).1
  refine ⟨h.of_sameMen ⟨rfl, rfl, rfl⟩ h.key, .going ⟨hprogress, nofun, nofun, fun howed => ?_⟩
    (Or.inl (h.stage.quiet_lt hprogress haction))⟩
  exact absurd (hturned.owes.2 howed) haction

/-- An accepted slide keeps a position sound. -/
theorem slide (h : pos.Sound) {a b : Point} {r : Nat × Position} (hr : pos.slide a b = .ok r) :
    r.2.Sound := by
  obtain ⟨picked, hselect, hput⟩ := bind_eq_ok_iff.1 hr
  exact (h.select hselect).put hput

end Sound

namespace Sound

variable {pos next : Position}

/-- An accepted removal keeps a position sound. -/
theorem remove (h : pos.Sound) {p : Point} (hnext : pos.remove p = .ok next) : next.Sound := by
  obtain ⟨hremovable, rfl⟩ := remove_ok_iff.1 hnext
  have htaken := h.takeMan hremovable.man
  have hframe := takeMan_frame pos p pos.removalTarget
  have hafter := afterTaking_cases (pos.takeMan p pos.removalTarget) pos.removalTarget
  obtain ⟨hlifts, hmarks⟩ := hafter.lifts htaken.agrees
  refine ⟨htaken.of_aftermath (hlifts.aftermath hmarks)
    (hafter.keyExact htaken.agrees htaken.key), ?_⟩
  apply hafter.stage htaken.agrees
  · rw [hframe.phase]
    exact hremovable.inProgress
  · rw [hframe.action]
    exact hremovable.action
  · rw [hframe.quiet]
    exact htaken.moveLimit_pos

/-- Every accepted move keeps a position sound. -/
theorem apply (h : pos.Sound) {m : Move} (hnext : pos.apply m = .ok next) : next.Sound := by
  obtain ⟨played, hplayed, rfl⟩ := apply_ok_iff.1 hnext
  have hsound : played.Sound := by
    cases hplayed with
    | placed _ hput =>
        exact (h.of_sameTurn (sameTurn_release pos)).put hput
    | slid _ hslide => exact h.slide hslide
    | removed _ hremove => exact h.remove hremove
  exact hsound.of_sameTurn (sameTurn_log played m)

/-- A game that goes on reaches the limit on quiet moves at most, and only while a removal is owed.
-/
theorem quiet_le (h : pos.Sound) (hover : pos.isOver = false) :
    pos.state.quiet ≤ pos.rule.moveLimit := by
  cases h.stage with
  | untouched huntouched =>
      rw [huntouched.quiet]
      exact Nat.zero_le _
  | going _ hquiet =>
      rcases hquiet with hlt | ⟨_, hle⟩
      · exact Nat.le_of_lt hlt
      · exact hle
  | finished hfinished => simp [Position.isOver, hfinished] at hover

end Sound

end Morris.Position
