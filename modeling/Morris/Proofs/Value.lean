import Morris.Proofs.Earned
import Morris.Proofs.Reach

/-!
# The value of a position that is not finished

Men and owed removals are worth the same, so a removal changes nothing in the balance: what a side
is ahead by (`Position.lead`) changes only when removals come to be owed or men are taken from a
hand. Between those moments it is at most the number of men that a side begins with less the least
that the other may keep, and one more if a removal is owed for another reason than a mill
(`Position.InBounds`). A side that has filled several lines at once is ahead by as many, but the men
on these lines stand in each other's way.

`Position.playedBy_value_le` puts this together with what is known about the reach of a side. No
unfinished position is worth more than `Position.ceiling`, which stays below the value of a won game
for up to ten men a side; men and removals alone are never worth as much as that. With twelve men a
side a position may be: `Position.not_forall_value_lt_mate` is a game whose last position is worth
more than a won one.
-/

set_option autoImplicit false

namespace Morris

namespace Position

variable {pos next : Position} {p : Point} {c : Side} {r : Nat × Position}

/-! ## Being ahead -/

/-- The men of a side, in hand and on the board, and the removals that it owes. -/
def strength (pos : Position) (c : Side) : Int :=
  pos.state.inHand.get c + pos.state.onBoard.get c + pos.owedValue c

/-- What a side is ahead by. -/
def lead (pos : Position) (c : Side) : Int := pos.strength c - pos.strength c.other

/-- What a side can be ahead by in men. -/
def spread (rule : Rule) : Int := (rule.pieceCount : Int) - rule.leastCount

/-- What a position can be worth, mobility included, while the game goes on. -/
def ceiling (rule : Rule) : Int :=
  manValue * (spread rule + 1) + (Board.degree rule.hasDiagonals * rule.pieceCount +
    (Board.couples rule.hasDiagonals).length : Nat)

theorem lead_other (pos : Position) (c : Side) : pos.lead c.other = -pos.lead c := by
  rw [lead, lead, Side.other_other]
  omega

theorem owedValue_congr (howed : next.state.owed = pos.state.owed)
    (htakes : next.state.takesOwn = pos.state.takesOwn) (c : Side) :
    next.owedValue c = pos.owedValue c := by
  rw [owedValue, owedValue, howed, htakes]

theorem Clear.owedValue_eq (h : pos.Clear) (c : Side) : pos.owedValue c = 0 := by
  rw [owedValue, h.owed_get, h.takesOwn, PerSide.get_both]
  rfl

/-- A lead is made of the hands, the men on the board and what is owed. -/
theorem lead_congr (hhand : next.state.inHand = pos.state.inHand)
    (hboard : next.state.onBoard = pos.state.onBoard) (howed : next.state.owed = pos.state.owed)
    (htakes : next.state.takesOwn = pos.state.takesOwn) (c : Side) : next.lead c = pos.lead c := by
  simp only [lead, strength, hhand, hboard, owedValue_congr howed htakes]

/-- With men enough on the other side a side is ahead by no more than the rule allows, and by what
it owes more. -/
theorem Consistent.lead_le (h : pos.Consistent) (hother : pos.isBeaten c.other = false) :
    pos.lead c ≤ spread pos.rule + (pos.owedValue c - pos.owedValue c.other) := by
  have hwithin := h.counted.within c
  rw [isBeaten, decide_eq_false_iff_not] at hother
  simp only [lead, strength, spread]
  omega

/-! ## Owing about the same -/

/-- Neither side owes more than one removal more than the other. -/
def Level (pos : Position) : Prop := ∀ c, pos.owedValue c ≤ pos.owedValue c.other + 1

theorem Level.of_same (h : pos.Level) (howed : next.state.owed = pos.state.owed)
    (htakes : next.state.takesOwn = pos.state.takesOwn) : next.Level := by
  intro c
  rw [owedValue_congr howed htakes, owedValue_congr howed htakes]
  exact h c

/-- Where nothing is owed, neither side owes more. -/
theorem Clear.level (h : pos.Clear) : pos.Level := by
  intro c
  rw [h.owedValue_eq, h.owedValue_eq]
  omega

/-- One removal comes to be owed. -/
theorem Clear.level_of_one (h : pos.Clear) (mover : Side)
    (howed : next.state.owed = pos.state.owed.set mover 1)
    (htakes : next.state.takesOwn = pos.state.takesOwn) : next.Level := by
  intro c
  simp only [owedValue, howed, htakes, h.owed, h.takesOwn, PerSide.get_both]
  cases c <;> cases mover <;> decide

theorem Level.turnToRemoval (h : pos.Level) : pos.turnToRemoval.Level := by
  refine h.of_same ?_ (takesOwn_turnToRemoval pos)
  rw [Position.turnToRemoval]
  split <;> rfl

/-- However a position is settled, neither side comes to owe much more than the other. -/
theorem Settling.level (h : pos.Settling next) (hlevel : pos.Level)
    (hclear : pos.state.action = .select → pos.Clear) : next.Level := by
  cases h with
  | idle _ => exact hlevel
  | finished winner ending => exact hlevel
  | passed _ =>
      have hpassed : pos.passTurn.Level := hlevel
      exact hpassed.turnToRemoval
  | freed frees hstuck _ =>
      have howes : (pos.mapState fun s => { s with freesMover := frees }).oweFreeing.Level :=
        (hclear hstuck.action).level_of_one pos.state.side rfl rfl
      exact howes.turnToRemoval
  | kept _ _ => exact hlevel.turnToRemoval

theorem Clear.level_settle (h : pos.Clear) : pos.settle.Level :=
  (settling_settle pos).level h.level fun _ => h

/-- The removals for mills differ by one at most. -/
theorem removalsForMills_near (white black : Nat) :
    (removalsForMills white black).white ≤ (removalsForMills white black).black + 1 ∧
      (removalsForMills white black).black ≤ (removalsForMills white black).white + 1 := by
  simp only [removalsForMills]
  split
  · decide
  · decide
  · decide
  · split_ifs <;> dsimp only <;> omega

/-- The removals owed for mills at the end of placing differ by one at most. -/
theorem level_oweForMills (pos : Position) : pos.oweForMills.Level := by
  obtain ⟨hwhite, hblack⟩ := removalsForMills_near (pos.millCount .white) (pos.millCount .black)
  have howed : pos.oweForMills.state.owed =
      removalsForMills (pos.millCount .white) (pos.millCount .black) := rfl
  have htakes : pos.oweForMills.state.takesOwn =
      .both (pos.millCount .white == 0 && pos.millCount .black == 0) := rfl
  intro c
  simp only [owedValue, howed, htakes, PerSide.get_both]
  cases c <;> simp only [PerSide.get, Side.other] <;> split <;> omega

/-- The end of placing leaves the sides owing about the same. -/
theorem Clear.level_placingEnd (h : pos.Clear) (hend : pos.PlacingEnd next) : next.Level := by
  cases hend with
  | lifted _ => exact (h.clearMarks.giveTurn _).level
  | counted _ => exact pos.level_oweForMills
  | plain _ _ => exact (h.giveTurn _).level

theorem Clear.level_endPlacing (h : pos.Clear) {ended : Position}
    (hended : pos.endPlacing? = some ended) : ended.settle.Level := by
  obtain ⟨_, hend⟩ := placingEnd_of_endPlacing hended
  refine (settling_settle ended).level (h.level_placingEnd hend) fun hselect => ?_
  apply (h.ledger_endPlacing hended).clear
  apply hend.turned.owed_eq_zero
  rw [hselect]
  decide

theorem Clear.level_endPlacingOrPass (h : pos.Clear) : pos.endPlacingOrPass.settle.Level := by
  simp only [endPlacingOrPass]
  cases hended : pos.endPlacing? with
  | some ended => exact h.level_endPlacing hended
  | none => exact (h.giveTurn _).level_settle

/-- A full board leaves the sides owing about the same. -/
theorem Clear.level_resolveFullBoard (h : pos.Clear) : pos.resolveFullBoard.Level := by
  have hboth : (pos.mapState fun s => { s with owed := .both 1 }).Level := by
    have hone : ∀ c, (pos.mapState fun s => { s with owed := .both 1 }).owedValue c = 1 := by
      intro c
      show (if pos.state.takesOwn.get c then -(((PerSide.both 1).get c : Nat) : Int)
        else (((PerSide.both 1).get c : Nat) : Int)) = 1
      rw [h.takesOwn, PerSide.get_both, PerSide.get_both]
      rfl
    intro c
    rw [hone, hone]
    decide
  simp only [resolveFullBoard]
  split
  · exact h.level
  · exact hboth
  · exact hboth
  · exact h.level_of_one (firstMover pos.rule) rfl rfl
  · exact h.level

/-! ## Owing for a mill -/

/-- A side has closed mills and is ahead by up to `n` more. -/
structure Raised (pos next : Position) (n : Nat) : Prop where
  side : next.state.side = pos.state.side
  takesOwn : next.state.takesOwn = pos.state.takesOwn
  owed : next.state.owed.get pos.state.side.other = 0
  lead : next.lead pos.state.side ≤ pos.lead pos.state.side + n
  other : pos.lead pos.state.side ≤ next.lead pos.state.side

/-- A move earns no more removals than it closes mills. -/
theorem removalsEarned_le (rule : Rule) {n : Nat} (hn : n ≠ 0) : removalsEarned rule n ≤ n := by
  simp only [removalsEarned]
  split
  · exact Nat.le_refl n
  · exact Nat.one_le_iff_ne_zero.2 hn

theorem Raised.mono {n k : Nat} (h : pos.Raised next k) (hk : k ≤ n) : pos.Raised next n where
  side := h.side
  takesOwn := h.takesOwn
  owed := h.owed
  lead := by
    have hlead := h.lead
    omega
  other := h.other

/-- What a side takes from the other side's hand and what it owes then is what it has earned. -/
theorem Clear.raised (h : pos.Clear) {k taken : Nat} (hside : next.state.side = pos.state.side)
    (htakes : next.state.takesOwn = pos.state.takesOwn)
    (howed : next.state.owed = pos.state.owed.set pos.state.side (k - taken))
    (hboard : next.state.onBoard = pos.state.onBoard)
    (hhand : next.state.inHand = pos.state.inHand.set pos.state.side.other
      (pos.state.inHand.get pos.state.side.other - taken))
    (htaken : taken ≤ pos.state.inHand.get pos.state.side.other) (hk : taken ≤ k) :
    pos.Raised next k := by
  have hzero : (pos.state.owed.set pos.state.side (k - taken)).get pos.state.side.other = 0 := by
    rw [PerSide.get_set_of_ne _ _ (Side.other_ne _), h.owed_get]
  have hown : next.owedValue pos.state.side = ((k - taken : Nat) : Int) := by
    rw [owedValue, htakes, h.takesOwn, PerSide.get_both, howed, PerSide.get_set_self]
    rfl
  have hother : next.owedValue pos.state.side.other = 0 := by
    rw [owedValue, htakes, h.takesOwn, PerSide.get_both, howed, hzero]
    rfl
  have hlead : next.lead pos.state.side = pos.lead pos.state.side + k := by
    simp only [Position.lead, strength, h.owedValue_eq, hown, hother, hboard, hhand,
      PerSide.get_set_self, PerSide.get_set_of_ne _ _ (Side.other_ne pos.state.side).symm]
    omega
  exact ⟨hside, htakes, by rw [howed]; exact hzero, by omega, by omega⟩

/-- Nothing comes to be owed for mills, and both sides have men enough, or the game is over. -/
structure Even (next : Position) : Prop where
  level : next.Level
  unbeaten : next.OverOrUnbeaten

theorem Clear.even_settle (h : pos.Clear) (hturned : pos.Turned) : pos.settle.Even :=
  ⟨h.level_settle, hturned.overOrUnbeaten_settle⟩

theorem Clear.even_endPlacing (h : pos.Clear) {ended : Position}
    (hended : pos.endPlacing? = some ended) : ended.settle.Even :=
  ⟨h.level_endPlacing hended, (placingEnd_of_endPlacing hended).2.turned.overOrUnbeaten_settle⟩

theorem Clear.even_endPlacingOrPass (h : pos.Clear) : pos.endPlacingOrPass.settle.Even :=
  ⟨h.level_endPlacingOrPass, overOrUnbeaten_endPlacingOrPass pos⟩

/-- A side that has earned removals is ahead by as many. -/
theorem Clear.raised_oweRemovals (h : pos.Clear) (n : Nat) : pos.Raised (pos.oweRemovals n) n := by
  refine h.raised rfl rfl ?_ rfl ?_ (Nat.zero_le _) (Nat.zero_le n)
  · rfl
  · rw [Nat.sub_zero, PerSide.set_get]
    rfl

theorem Clear.even_or_raised_takeFromHand (h : pos.Clear) (hphase : pos.state.phase = .placing)
    (haction : pos.state.action = .place) (n : Nat) :
    (pos.takeFromHand n).Even ∨ pos.Raised (pos.takeFromHand n) n := by
  simp only [takeFromHand]
  split
  · -- what the hand falls short of is owed on the board
    right
    exact h.raised rfl rfl rfl rfl rfl (Nat.min_le_right _ _) (Nat.min_le_left _ _)
  · rename_i henough
    left
    have hclear := h.raidHand (Nat.le_of_not_lt henough)
    split
    · exact hclear.even_endPlacing ‹_›
    · split
      · exact (hclear.giveTurn _).even_settle (turned_giveTurn _ _)
      · exact hclear.even_settle (hclear.turned_of_place hphase haction)

/-- A placement leaves the sides even, or the one that placed ahead by its mills. -/
theorem Clear.even_or_raised_afterDrop (h : pos.Clear) (hphase : pos.state.phase = .placing)
    (haction : pos.state.action = .place) (hunbeaten : ∀ c, pos.isBeaten c = false) (n : Nat) :
    (pos.afterDrop n).Even ∨ pos.Raised (pos.afterDrop n) n := by
  simp only [afterDrop]
  split
  · exact Or.inl h.even_endPlacingOrPass
  · split
    · left
      split
      · have hlifts := (sameMen_resolveFullBoard pos).lifts
        exact ⟨h.level_resolveFullBoard, Or.inr (unbeaten_of_lifts hlifts hunbeaten)⟩
      · exact h.even_endPlacingOrPass
    · rename_i hn
      have hearned := removalsEarned_le pos.rule hn
      have hraid := h.even_or_raised_takeFromHand hphase haction (removalsEarned pos.rule n)
      split
      · exact hraid.imp_right fun hraised => hraised.mono hearned
      · exact hraid.imp_right fun hraised => hraised.mono hearned
      · exact Or.inr ((h.raised_oweRemovals _).mono hearned)

/-- A slide leaves the sides even, or the one that slid ahead by its mills. -/
theorem Clear.even_or_raised_afterShift (h : pos.Clear) (a b : Point) (opened n : Nat) :
    (pos.afterShift a b opened n).Even ∨ pos.Raised (pos.afterShift a b opened n) n := by
  simp only [afterShift]
  split
  · left
    have hremembered : (pos.remember none).Clear := h.of_sameTurn (sameTurn_remember pos none)
    exact (hremembered.giveTurn _).even_settle (turned_giveTurn _ _)
  · rename_i hn
    right
    have hremembered : ∀ slid,
        pos.Raised ((pos.remember slid).oweRemovals (removalsEarned pos.rule n))
        (removalsEarned pos.rule n) := by
      intro slid
      have hraised := (h.of_sameTurn (sameTurn_remember pos slid)).raised_oweRemovals
        (removalsEarned pos.rule n)
      exact ⟨hraised.side, hraised.takesOwn, hraised.owed, hraised.lead, hraised.other⟩
    have hearned := removalsEarned_le pos.rule hn
    split
    · exact (hremembered _).mono hearned
    · exact (h.raised_oweRemovals _).mono hearned

/-! ## The bounds -/

/-- A side that has filled lines through a point may be ahead by as many. -/
structure Scored (pos : Position) : Prop where
  takesOwn : pos.state.takesOwn.get pos.state.side = false
  owed : pos.state.owed.get pos.state.side.other = 0
  other : pos.lead pos.state.side.other ≤ spread pos.rule
  lines : ∃ (n : Nat) (p : Point), Point.onBoard p = true ∧
    n ≤ (pos.filledLines pos.state.side p).length ∧ pos.lead pos.state.side ≤ spread pos.rule + n

/-- What a side is ahead by is in bounds. -/
def InBounds (pos : Position) : Prop := (∀ c, pos.lead c ≤ spread pos.rule + 1) ∨ pos.Scored

theorem Level.inBounds (h : pos.Level) (hcons : pos.Consistent)
    (hunbeaten : ∀ c, pos.isBeaten c = false) : pos.InBounds := by
  refine Or.inl fun c => ?_
  have hlead := hcons.lead_le (hunbeaten c.other)
  have hlevel := h c
  omega

theorem Raised.inBounds {n : Nat} (h : pos.Raised next n) (hcons : pos.Consistent)
    (hclear : pos.Clear)
    (hunbeaten : ∀ c, pos.isBeaten c = false) (hrule : next.rule = pos.rule)
    (hp : Point.onBoard p = true) (hlines : n ≤ (next.filledLines pos.state.side p).length) :
    next.InBounds := by
  -- before the mill nothing is owed, and neither side is ahead by more than the spread
  have hbefore : ∀ c, pos.lead c ≤ spread pos.rule := by
    intro c
    have hlead := hcons.lead_le (hunbeaten c.other)
    rw [hclear.owedValue_eq, hclear.owedValue_eq] at hlead
    omega
  have hmover := hbefore pos.state.side
  have hother := hbefore pos.state.side.other
  have hahead := h.lead
  have hkept := h.other
  rw [lead_other] at hother
  right
  constructor
  · rw [h.takesOwn, hclear.takesOwn, PerSide.get_both]
  · rw [h.side]
    exact h.owed
  · rw [h.side, lead_other, hrule]
    omega
  · rw [h.side, hrule]
    exact ⟨n, p, hp, hlines, by omega⟩

/-- A man closes no more mills than its side has filled lines through its point. -/
theorem length_scoreLines_le (p : Point) (pairs : List Bitboard) (used : Bitboard) :
    (scoreLines p pairs used).1 ≤ pairs.length := by
  induction pairs generalizing used with
  | nil => exact Nat.le_refl 0
  | cons pair pairs ih =>
      rw [scoreLines]
      split
      · exact Nat.le_succ_of_le (ih used)
      · exact Nat.succ_le_succ (ih _)

/-- A man closes no more mills than there are filled lines through its point. -/
theorem Consistent.scoreMills_le (h : pos.Consistent) (hman : pos.contentAt p = c.man) :
    (pos.scoreMills p c).1 ≤ (pos.filledLines c p).length := by
  have hp := h.onBoard_of_man hman
  rw [← map_insert_partners hp ((h.agrees.men c p).2 hman), List.length_map]
  simp only [Position.scoreMills]
  split
  · exact length_scoreLines_le p _ _
  · have hside : pos.sideAt? p = some c := by
      rw [sideAt?, colourAt, hman]
      cases c <;> rfl
    rw [millsAt, hside, ← List.countP_eq_length_filter]
    exact Nat.le_refl _

theorem filledLines_congr (hrule : next.rule = pos.rule) (hmen : next.men c = pos.men c)
    (p : Point) :
    next.filledLines c p = pos.filledLines c p := by
  rw [filledLines, filledLines, hrule, hmen]

/-- Nothing has changed about the lines that the side to move has filled. -/
theorem Scored.of_lead (h : pos.Scored) (hrule : next.rule = pos.rule)
    (hside : next.state.side = pos.state.side) (hlead : ∀ c, next.lead c = pos.lead c)
    (hmen : next.men pos.state.side = pos.men pos.state.side)
    (htakes : next.state.takesOwn.get pos.state.side = false)
    (howed : next.state.owed.get pos.state.side.other = 0) : next.Scored := by
  obtain ⟨n, p, hp, hn, hmover⟩ := h.lines
  constructor
  · rw [hside, htakes]
  · rw [hside, howed]
  · rw [hside, hlead, hrule]
    exact h.other
  · rw [hside, hlead, hrule]
    refine ⟨n, p, hp, ?_, hmover⟩
    rw [filledLines_congr hrule hmen]
    exact hn

theorem InBounds.of_lead (h : pos.InBounds) (hrule : next.rule = pos.rule)
    (hlead : ∀ c, next.lead c = pos.lead c) (hscored : pos.Scored → next.Scored) :
    next.InBounds := by
  refine h.imp (fun hbounds c => ?_) hscored
  rw [hlead, hrule]
  exact hbounds c

/-- Where the sides are even, the lead is in bounds. -/
theorem Even.inBounds (h : next.Even) (hcons : next.Consistent)
    (hgoes : next.state.phase ≠ .finished) : next.InBounds :=
  h.level.inBounds hcons (h.unbeaten.resolve_left hgoes)

/-- A placement keeps the lead in bounds. -/
theorem Sound.inBounds_placeMan (h : pos.Sound) (hclear : pos.Clear)
    (hunbeaten : ∀ c, pos.isBeaten c = false)
    (hphase : pos.state.phase = .ready ∨ (pos.state.phase = .placing ∧ pos.state.action = .place))
    (hp : Point.onBoard p = true) (hfree : pos.contentAt p = .empty)
    (hhand : pos.state.inHand.get pos.state.side ≠ 0)
    (hnext : (pos.begun.placeMan p).2.Consistent)
    (hgoes : (pos.begun.placeMan p).2.state.phase ≠ .finished) :
    (pos.begun.placeMan p).2.InBounds := by
  have hbegun := h.begun (hphase.imp_right And.left)
  have hdropped := hbegun.drop hp hfree hhand
  obtain ⟨n, closed, hscore, heq, hsame, hcons⟩ := hbegun.placeMan_spec hp hfree hhand
  have hclosed := (hclear.begun.drop p).of_sameTurn hsame
  have henough : ∀ c, closed.isBeaten c = false := fun c =>
    (hsame.isBeaten c).trans ((isBeaten_drop hhand p c).trans (hunbeaten c))
  have haction : closed.state.action = .place := hsame.action.trans (h.asked_to_place hphase).1
  have hman : (pos.begun.drop p).contentAt p = pos.state.side.man :=
    contentAt_drop_self pos.begun hp
  have hmen := hbegun.men_placeMan hp hfree hhand pos.state.side
  rw [heq] at hnext hgoes hmen ⊢
  have hafter := (afterDrop_cases closed n).aftermath hcons.agrees
  have hrule : (closed.afterDrop n).rule = closed.rule := congrArg Variant.rule hafter.variant
  rcases hclosed.even_or_raised_afterDrop hsame.phase haction henough n with heven | hraised
  · exact heven.inBounds hnext hgoes
  · apply hraised.inBounds hcons hclosed henough hrule hp
    have hlines := hdropped.scoreMills_le hman
    have hside : closed.state.side = pos.state.side := hsame.side
    rw [hside, filledLines_congr (hrule.trans hsame.rule) hmen]
    rw [show (pos.begun.drop p).scoreMills p pos.state.side = (n, closed) from hscore] at hlines
    exact hlines

/-- A slide keeps the lead in bounds. -/
theorem Sound.inBounds_slideMan (h : pos.Sound) (hclear : pos.Clear)
    (hunbeaten : ∀ c, pos.isBeaten c = false) {a : Point} (hp : Point.onBoard p = true)
    (hslide : pos.Slidable a p) (hnext : (pos.slideMan a p).2.Consistent)
    (hgoes : (pos.slideMan a p).2.state.phase ≠ .finished) : (pos.slideMan a p).2.InBounds := by
  have hshifted := h.toConsistent.shift hslide.man hp hslide.free
  obtain ⟨n, closed, opened, hscore, heq, hsame, hcons⟩ := h.slideMan_spec hp hslide
  have hclosed := (hclear.shift a p).of_sameTurn hsame
  have henough : ∀ c, closed.isBeaten c = false := fun c => (hsame.isBeaten c).trans (hunbeaten c)
  have hman := contentAt_shift_self pos (h.onBoard_of_man hslide.man) hp
  have hmen := h.men_slideMan hp hslide pos.state.side
  rw [heq] at hnext hgoes hmen ⊢
  have hrule := (afterShift_cases closed a p opened n).sameMen.rule
  rcases hclosed.even_or_raised_afterShift a p opened n with heven | hraised
  · exact heven.inBounds hnext hgoes
  · apply hraised.inBounds hcons hclosed henough hrule hp
    have hlines := hshifted.scoreMills_le hman
    have hside : closed.state.side = pos.state.side := hsame.side
    rw [hside, filledLines_congr (hrule.trans hsame.rule) hmen]
    rw [hscore] at hlines
    exact hlines

theorem Sound.inBounds_setDown (h : pos.Sound) (hclear : pos.Clear)
    (hunbeaten : ∀ c, pos.isBeaten c = false) (hdown : pos.SetDown p r)
    (hgoes : r.2.state.phase ≠ .finished) : r.2.InBounds := by
  have hnext := (h.setDown hdown).toConsistent
  cases hdown with
  | placed hphase hp hfree hhand =>
      exact h.inBounds_placeMan hclear hunbeaten hphase hp hfree hhand hnext hgoes
  | held s _ _ _ _ =>
      have hheld : (pos.mapState fun st => { st with selected := s }).Level := hclear.level
      exact hheld.inBounds hnext hunbeaten
  | slid _ _ hp hslide => exact h.inBounds_slideMan hclear hunbeaten hp hslide hnext hgoes

/-! ## Removals -/

theorem TakeFrame.owedValue {target : Side} (h : pos.TakeFrame target next)
    (howes : pos.state.owed.get pos.state.side ≠ 0) :
    next.owedValue pos.state.side = pos.owedValue pos.state.side +
        (if pos.state.takesOwn.get pos.state.side then 1 else -1) ∧
      next.owedValue pos.state.side.other = pos.owedValue pos.state.side.other := by
  have hne := Side.other_ne pos.state.side
  constructor
  · simp only [Position.owedValue, h.owed, h.takesOwn, PerSide.get_set_self]
    cases htakes : pos.state.takesOwn.get pos.state.side <;> split_ifs <;> simp_all <;> omega
  · simp only [Position.owedValue, h.owed, h.takesOwn, PerSide.get_set_of_ne _ _ hne]
    split <;> simp only [PerSide.get_set_of_ne _ _ hne]

/-- A removal makes up for what it takes. -/
theorem Sound.lead_takeMan (h : pos.Sound) (hremovable : pos.Removable p) (c : Side) :
    (pos.takeMan p pos.removalTarget).lead c = pos.lead c := by
  have hframe := takeMan_frame pos p pos.removalTarget
  obtain ⟨hown, hrest⟩ := hframe.owedValue hremovable.owes
  obtain ⟨htarget, hother⟩ := onBoard_takeMan h.toConsistent hremovable.man
  have hmover : (pos.takeMan p pos.removalTarget).lead pos.state.side =
      pos.lead pos.state.side := by
    simp only [lead, strength, hframe.inHand, hown, hrest]
    rw [removalTarget] at htarget hother ⊢
    cases htakes : pos.state.takesOwn.get pos.state.side <;>
      simp only [htakes, if_true, Bool.false_eq_true, if_false, Side.other_other]
        at htarget hother ⊢ <;> omega
  rcases Side.eq_or_eq_other c pos.state.side with rfl | rfl
  · exact hmover
  · rw [lead_other, lead_other, hmover]

theorem Clear.level_afterRemovals (h : pos.Clear) :
    pos.afterRemovals.Level ∧ pos.afterRemovals.settle.Level := by
  simp only [afterRemovals, h.frees, Bool.false_eq_true, if_false]
  split
  · rename_i ended hended
    exact ⟨h.level_placingEnd (placingEnd_of_endPlacing hended).2, h.level_endPlacing hended⟩
  · exact ⟨(h.giveTurn _).level, (h.giveTurn _).level_settle⟩

theorem Paid.level_afterRemovals (h : pos.Paid)
    (hother : pos.state.owed.get pos.state.side.other = 0) :
    pos.afterRemovals.Level ∧ pos.afterRemovals.settle.Level := by
  have htakes : ∀ c, pos.state.takesOwn.get c = true → pos.state.owed.get c ≠ 0 :=
    fun c htrue => (h.takesOwn c htrue).1
  cases hfrees : pos.state.freesMover with
  | false => exact (clear_of_owed h.owed hother htakes hfrees).level_afterRemovals
  | true =>
      -- the side that has freed itself keeps the turn
      have hclear : (pos.mapState fun s => { s with freesMover := false }).Clear :=
        clear_of_owed h.owed hother htakes rfl
      rw [afterRemovals_of_moving (h.frees hfrees).1, hfrees, if_pos rfl]
      exact ⟨(hclear.giveTurn _).level, (hclear.giveTurn _).level_settle⟩

/-- What is in bounds stays there while the same side goes on removing. -/
theorem Sound.inBounds_takeMan (h : pos.Sound) (hremovable : pos.Removable p)
    (hbounds : pos.InBounds) : (pos.takeMan p pos.removalTarget).InBounds := by
  have hframe := takeMan_frame pos p pos.removalTarget
  have hlead := h.lead_takeMan hremovable
  refine hbounds.of_lead hframe.rule hlead fun hscored => ?_
  have htarget : pos.removalTarget = pos.state.side.other := by
    rw [removalTarget, hscored.takesOwn]
    rfl
  apply hscored.of_lead hframe.rule hframe.side hlead
  · have hman := hremovable.man
    rw [htarget] at hman ⊢
    exact men_takeMan h.toConsistent hman
  · rw [hframe.takesOwn]
    split
    · exact PerSide.get_set_self _ _ _
    · exact hscored.takesOwn
  · rw [hframe.owed, PerSide.get_set_of_ne _ _ (Side.other_ne _)]
    exact hscored.owed

/-- The turn goes to a side that owes removals itself only if no lines have been filled. -/
theorem Sound.inBounds_passTurn (h : pos.Sound) (hremovable : pos.Removable p)
    (hbounds : pos.InBounds) (hother : pos.state.owed.get pos.state.side.other ≠ 0) :
    (pos.takeMan p pos.removalTarget).passTurn.InBounds :=
  hbounds.of_lead (takeMan_frame pos p pos.removalTarget).rule (h.lead_takeMan hremovable)
    fun hscored => absurd hscored.owed hother

theorem Sound.inBounds_afterTaking (h : pos.Sound) (hledger : pos.Ledger)
    (hremovable : pos.Removable p) (hbounds : pos.InBounds)
    (hnext : (pos.takeMan p pos.removalTarget).afterTaking pos.removalTarget = next)
    (hunbeaten : ∀ c, next.isBeaten c = false) : next.InBounds := by
  have hcons : next.Consistent :=
    (h.remove (remove_ok_iff.2 ⟨hremovable, hnext.symm⟩)).toConsistent
  have hframe := takeMan_frame pos p pos.removalTarget
  cases hbeaten : (pos.takeMan p pos.removalTarget).isBeaten pos.removalTarget with
  | true =>
      -- a side that is beaten stays so
      have hlost : next.isBeaten pos.removalTarget = true := by
        rw [← hnext, afterTaking, if_pos hbeaten]
        exact hbeaten
      rw [hunbeaten] at hlost
      cases hlost
  | false =>
      by_cases hlast : (pos.takeMan p pos.removalTarget).state.owed.get pos.state.side = 0
      · by_cases hrest : pos.state.owed.get pos.state.side.other = 0
        · -- all is paid, and what comes to be owed now differs by one at most
          have hpaid := (hledger.taken hframe).2 (by rw [hframe.side]; exact hlast)
          have hother : (pos.takeMan p pos.removalTarget).state.owed.get
              (pos.takeMan p pos.removalTarget).state.side.other = 0 := by
            rw [hframe.side, hframe.owed, PerSide.get_set_of_ne _ _ (Side.other_ne _), hrest]
          obtain ⟨hlevel, hsettled⟩ := hpaid.level_afterRemovals hother
          have hnextLevel : next.Level := by
            simp only [afterTaking] at hnext
            rw [if_neg (by rw [hbeaten]; decide), hframe.side, if_neg fun hmore => hmore hlast]
              at hnext
            rw [← hnext]
            split
            · exact hsettled
            · exact hlevel
          exact hnextLevel.inBounds hcons hunbeaten
        · rw [← hnext, hledger.afterTaking_eq_passTurn hrest hbeaten hlast]
          exact h.inBounds_passTurn hremovable hbounds hrest
      · rw [← hnext, afterTaking_of_owes hbeaten (by rw [hframe.side]; exact hlast)]
        exact h.inBounds_takeMan hremovable hbounds

/-! ## Games of accepted moves -/

variable {admits : Move → Prop} {rule : Rule}

theorem InBounds.of_sameTurn (h : pos.InBounds) (hsame : pos.SameTurn next) : next.InBounds := by
  have hlead := lead_congr (congrArg Layout.inHand hsame.layout)
    (congrArg Layout.onBoard hsame.layout)
    hsame.owed hsame.takesOwn
  refine h.of_lead hsame.rule hlead fun hscored => ?_
  apply hscored.of_lead hsame.rule hsame.side hlead
  · rw [men, men, hsame.layout]
  · rw [hsame.takesOwn]
    exact hscored.takesOwn
  · rw [hsame.owed]
    exact hscored.owed

/-- A side with too few men has been overdrawn by the placement just made. -/
theorem PlayedBy.unbeaten (h : PlayedBy admits rule pos) (hgoes : pos.state.phase ≠ .finished)
    (hplaced : pos.state.lastMove.kind = .remove ∨ pos.state.action ≠ .remove) (c : Side) :
    pos.isBeaten c = false := by
  rcases h.supplied with (hover | hunbeaten) | ⟨d, hdrawn, hkind⟩
  · exact absurd hover hgoes
  · exact hunbeaten c
  · rcases hplaced with hremoved | haction
    · cases hkind.symm.trans hremoved
    · exact absurd hdrawn.action haction

theorem PlayedBy.clear (h : PlayedBy admits rule pos) (hgoes : pos.state.phase ≠ .finished)
    (haction : pos.state.action ≠ .remove) : pos.Clear :=
  (h.reachable.balanced.ledger hgoes).clear_of_action h.sound hgoes haction

/-- In every position of a game that goes on, the lead is in bounds. -/
theorem PlayedBy.inBounds (h : PlayedBy admits rule pos) (hgoes : pos.state.phase ≠ .finished) :
    pos.InBounds := by
  induction h with
  | begin hbegin =>
      have hplayed : PlayedBy admits rule _ := .begin hbegin
      obtain ⟨v, _, rfl⟩ := map_eq_ok_iff.1 hbegin
      have haction : (ofVariant v).state.action ≠ .remove := by
        show Action.place ≠ .remove
        decide
      exact (clear_initial v).level.inBounds hplayed.sound.toConsistent
        (hplayed.unbeaten hgoes (Or.inr haction))
  | @move pos next m hplayed hm hnext ih =>
      have hsound := hplayed.sound
      have hstepped := hplayed.move hm hnext
      obtain ⟨r, hstep, rfl⟩ := hsound.exists_step hnext
      apply InBounds.of_sameTurn _ (sameTurn_log r.2 m)
      cases hstep with
      | down hkind hdown =>
          -- who puts a man down owes nothing, so the bounds do not depend on those before
          obtain ⟨haction, hgoing⟩ := hsound.idle_of_setDown hdown
          exact hsound.inBounds_setDown (hplayed.clear hgoing haction)
            (hplayed.unbeaten hgoing (Or.inr haction)) hdown hgoes
      | removed hkind hremovable =>
          exact hsound.inBounds_afterTaking (hplayed.reachable.balanced.ledger hremovable.goes)
            hremovable (ih hremovable.goes) rfl (hstepped.unbeaten hgoes (Or.inl hkind))

/-! ## The value -/

theorem InBounds.lead_le (h : pos.InBounds) (c : Side) : pos.lead c ≤ spread pos.rule + 3 := by
  rcases h with hbounds | hscored
  · have hlead := hbounds c
    omega
  · rcases Side.eq_or_eq_other c pos.state.side with rfl | rfl
    · obtain ⟨n, p, hp, hn, hlead⟩ := hscored.lines
      have hthree := length_filledLines_le pos pos.state.side hp
      omega
    · have hlead := hscored.other
      omega

/-- What a side is ahead by and its reach together. A line that puts it further ahead takes from its
reach. -/
theorem InBounds.lead_add_reach_le (h : pos.InBounds) (hcons : pos.Consistent) (c : Side) :
    manValue * pos.lead c + pos.reach c ≤ ceiling pos.rule := by
  have hwithin := hcons.counted.within c
  have hmen := Nat.mul_le_mul_left (Board.degree pos.rule.hasDiagonals)
    (Nat.le_trans (Nat.le_add_right _ _) hwithin)
  have hreach := hcons.reach_le c
  have hcalm : pos.lead c ≤ spread pos.rule + 1 →
      manValue * pos.lead c + pos.reach c ≤ ceiling pos.rule := by
    intro hlead
    rw [ceiling, manValue]
    omega
  rcases h with hbounds | hscored
  · exact hcalm (hbounds c)
  · rcases Side.eq_or_eq_other c pos.state.side with rfl | rfl
    · obtain ⟨n, p, hp, hn, hlead⟩ := hscored.lines
      have hthree := length_filledLines_le pos pos.state.side hp
      have hlines := hcons.reach_add_lines_le pos.state.side hp
      -- each of at most three lines is worth five and costs four
      rw [ceiling, manValue]
      omega
    · have hlead := hscored.other
      exact hcalm (by omega)

theorem Consistent.menInMills_le (h : pos.Consistent) (c : Side) :
    pos.menInMills c ≤ pos.rule.pieceCount := by
  have hlive : (pos.men c).points ⊆ Point.all.filter (pos.men c).contains := by
    intro p hp
    have hin := (Bitboard.mem_points _ p).1 hp
    have hman := (h.agrees.men c p).1 hin
    exact List.mem_filter.2 ⟨(Point.mem_all p).2 (h.onBoard_of_man hman), hin⟩
  calc pos.menInMills c ≤ (pos.men c).points.length := List.countP_le_length
    _ ≤ (Point.all.filter (pos.men c).contains).length :=
        ((List.nodup_range.filter _).subperm hlive).length_le
    _ = pos.state.onBoard.get c := by rw [← List.countP_eq_length_filter, h.countP_men]
    _ ≤ pos.rule.pieceCount := Nat.le_trans (Nat.le_add_right _ _) (h.counted.within c)

theorem material_eq (pos : Position) (hclear : pos.state.action ≠ .remove → pos.Clear) :
    pos.material = manValue * pos.lead .white := by
  have hlead : pos.lead .white = difference pos.state.inHand + difference pos.state.onBoard +
      (pos.owedValue .white - pos.owedValue .black) := by
    simp only [lead, strength, difference, PerSide.get, Side.other]
    omega
  rw [material, hlead, manValue]
  split
  · omega
  · rename_i haction
    rw [(hclear haction).owedValue_eq, (hclear haction).owedValue_eq]
    omega

/-- What the value of a position of a game that goes on is made of. -/
theorem PlayedBy.value_cases (h : PlayedBy admits rule pos) (hgoes : pos.state.phase ≠ .finished)
    (withMobility : Bool) : pos.valueForWhite withMobility = 0 ∨
      pos.valueForWhite withMobility = pos.millBalance ∨
        pos.valueForWhite withMobility =
          manValue * pos.lead .white + if withMobility then pos.mobility else 0 := by
  have hmaterial := pos.material_eq (h.clear hgoes)
  cases hphase : pos.state.phase with
  | ready =>
      left
      simp only [valueForWhite, hphase]
  | finished => exact absurd hphase hgoes
  | placing | moving =>
      right
      simp only [valueForWhite, hphase, hmaterial]
      split
      · exact Or.inl rfl
      · cases withMobility <;> simp

/-- The ceiling is not lower than the number of men, and below the value of a won game for up to ten
of them. -/
theorem ceiling_bounds (hvalid : rule.Valid) : (rule.pieceCount : Int) ≤ ceiling rule ∧
    (rule.pieceCount ≤ 10 → ceiling rule < mate) := by
  obtain ⟨_, _, ⟨hleast, hle⟩, _⟩ := (Rule.valid_iff rule).1 hvalid
  cases hdiagonals : rule.hasDiagonals <;>
    simp [ceiling, spread, mate, manValue, hdiagonals, Board.degree, Board.couples] <;> omega

/-- While a game goes on no position is worth as much as a won one if mobility does not count, nor
with up to ten men a side if it does; with more men it is not worth more than the men that a side
can be ahead by, another one for a removal, and the places that a side can reach. -/
theorem playedBy_value_le (h : PlayedBy admits rule pos) (hgoes : pos.state.phase ≠ .finished) :
    (-mate < pos.valueForWhite false ∧ pos.valueForWhite false < mate) ∧
      (-ceiling rule ≤ pos.valueForWhite true ∧ pos.valueForWhite true ≤ ceiling rule) ∧
      (rule.pieceCount ≤ 10 →
        -mate < pos.valueForWhite true ∧ pos.valueForWhite true < mate) := by
  have hcons := h.sound.toConsistent
  have hbounds := h.inBounds hgoes
  have hrule := h.rule_eq
  have hvalid : rule.Valid := by
    obtain ⟨hmade, hsame⟩ := Variant.made_of_ofRule h.variant_ofRule
    rw [← hsame]
    exact hmade.valid
  obtain ⟨hmenUp, hbelow⟩ := ceiling_bounds hvalid
  obtain ⟨⟨_, hpieces⟩, _, ⟨hleast, _⟩, _⟩ := (Rule.valid_iff rule).1 hvalid
  -- the mills of a side consist of its men
  have hmills : -(rule.pieceCount : Int) ≤ pos.millBalance ∧
      pos.millBalance ≤ rule.pieceCount := by
    have hwhite := hcons.menInMills_le .white
    have hblack := hcons.menInMills_le .black
    rw [hrule] at hwhite hblack
    rw [millBalance]
    omega
  have hblackLead : pos.lead .black = -pos.lead .white := pos.lead_other .white
  have hplain : -mate < pos.valueForWhite false ∧ pos.valueForWhite false < mate := by
    have hwhite := hbounds.lead_le .white
    have hblack := hbounds.lead_le .black
    rw [hrule, spread] at hwhite hblack
    rw [mate]
    rcases h.value_cases hgoes false with hvalue | hvalue | hvalue <;> rw [hvalue]
    · omega
    · omega
    · rw [if_neg Bool.false_ne_true, manValue]
      omega
  have hmobile : -ceiling rule ≤ pos.valueForWhite true ∧
      pos.valueForWhite true ≤ ceiling rule := by
    have hwhite := hbounds.lead_add_reach_le hcons .white
    have hblack := hbounds.lead_add_reach_le hcons .black
    rw [hrule, manValue] at hwhite hblack
    rcases h.value_cases hgoes true with hvalue | hvalue | hvalue <;> rw [hvalue]
    · omega
    · omega
    · rw [if_pos rfl, mobility, manValue]
      omega
  refine ⟨hplain, hmobile, fun hten => ?_⟩
  have hceiling := hbelow hten
  omega

/-- White has filled two lines at once, and owes two removals. -/
theorem playedBy_value_le_doubleLine : ∃ pos, PlayedBy Move.OnBoard freeing pos ∧
    pos.state.phase ≠ .finished ∧ pos.state.owed.white = 2 ∧ 0 < pos.valueForWhite true ∧
      pos.valueForWhite true ≤ ceiling freeing ∧ pos.valueForWhite true < mate := by
  have hrun : ((ofVariant (.ofRule freeing)).applyAll? (doubleLine ++ [.place 8])).any (fun pos =>
      decide (pos.state.phase ≠ .finished ∧ pos.state.owed.white = 2 ∧
        0 < pos.valueForWhite true)) = true := by
    decide +kernel
  obtain ⟨pos, hpos, hfacts⟩ := (Option.any_eq_true _ _).1 hrun
  obtain ⟨hgoes, howed, hvalue⟩ := of_decide_eq_true hfacts
  have hplayed : PlayedBy Move.OnBoard freeing pos := (PlayedBy.begin rfl).applyAll
    (show ∀ m ∈ doubleLine ++ [.place 8], m.OnBoard by decide +kernel) hpos
  obtain ⟨_, ⟨_, hceiling⟩, hbelow⟩ := playedBy_value_le hplayed hgoes
  exact ⟨pos, hplayed, hgoes, howed, hvalue, hceiling, (hbelow (by decide)).2⟩

/-- Twelve men a side on a board with diagonals, who all may fly; every mill earns a removal, and a
side goes on with two men. -/
def allFlying : Rule where
  pieceCount := 12
  flyCount := 12
  leastCount := 2
  hasDiagonals := true
  mayRemoveMultiple := true

/-- White takes ten of Black's men and spreads its own over the board. -/
def lopsided : List Move :=
  [.place 13, .place 11, .place 29, .place 19, .place 15, .place 10, .place 31, .place 18,
    .place 27, .place 12, .place 21, .remove 19, .place 17, .place 23, .remove 11, .place 9,
    .place 19, .place 8, .place 11, .remove 12, .place 14, .place 12, .remove 14, .place 16,
    .place 22, .remove 10, .place 26, .place 20, .remove 26, .place 26, .slide 21 25, .slide 26 10,
    .slide 12 21, .remove 10, .remove 18, .remove 9, .slide 17 9, .slide 21 30, .remove 16,
    .slide 8 10, .slide 30 21]

/-- A position may be worth more than a won game while the game goes on. -/
theorem not_forall_value_lt_mate :
    ¬ ∀ (rule : Rule) (pos : Position) (withMobility : Bool), PlayedBy Move.OnBoard rule pos →
      pos.state.phase ≠ .finished →
        -mate < pos.valueForWhite withMobility ∧ pos.valueForWhite withMobility < mate := by
  intro hall
  have hrun : ((ofVariant (.ofRule allFlying)).applyAll? lopsided).any (fun pos =>
      decide (pos.state.phase ≠ .finished ∧ mate < pos.valueForWhite true)) = true := by
    decide +kernel
  obtain ⟨pos, hpos, hfacts⟩ := (Option.any_eq_true _ _).1 hrun
  obtain ⟨hgoes, hvalue⟩ := of_decide_eq_true hfacts
  have hplayed : PlayedBy Move.OnBoard allFlying pos :=
    (PlayedBy.begin rfl).applyAll (show ∀ m ∈ lopsided, m.OnBoard by decide +kernel) hpos
  have hbelow := (hall allFlying pos true hplayed hgoes).2
  omega

end Position

end Morris
