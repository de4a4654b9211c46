import Morris.Position.Play
import Morris.Proofs.Placing

/-!
# What follows a move of the men

A placement, a slide and a removal first move the men (`drop`, `shift`, `takeMan`) and then draw the
consequences (`afterDrop`, `afterShift`, `afterTaking`). This module is about the consequences. None
of them touches a man on the board: `Position.Aftermath` is their common frame, in which marks may
be lifted only when placing ends and hands may only get emptier. Each of them also keeps the key
exact and ends in a stage of the game that fits (`Position.Stage`).
-/

set_option autoImplicit false

namespace Morris.Position

/-! ## Frames -/

/-- Every point holds what it held, or placing has ended. -/
def MarksStay (pos next : Position) : Prop :=
  (∀ q, next.contentAt q = pos.contentAt q) ∨
    (pos.state.phase = .placing ∧ next.state.phase ≠ .placing)

/-- A change that leaves men and marks alone leaves the marks where they are. -/
theorem SameMen.marksStay {pos next : Position} (h : pos.SameMen next) : pos.MarksStay next :=
  Or.inl h.content

/-- What the consequences of a move leave alone: the men on the board, the marks unless placing
ends, and the hand of the side that moved. -/
structure Aftermath (pos next : Position) : Prop where
  variant : next.variant = pos.variant
  onBoard : next.state.onBoard = pos.state.onBoard
  ownHand : next.state.inHand.get pos.state.side = pos.state.inHand.get pos.state.side
  hands : ∀ c, next.state.inHand.get c ≤ pos.state.inHand.get c
  content : ∀ q, next.contentAt q = pos.contentAt q ∨
    (pos.contentAt q = .marked ∧ next.contentAt q = .empty)
  marksStay : pos.MarksStay next
  agrees : pos.state.Agrees → next.state.Agrees
  count : ∀ c : Side, next.state.board.count c.man = pos.state.board.count c.man

theorem Lifts.aftermath {pos next : Position} (h : pos.Lifts next) (hmarks : pos.MarksStay next) :
    pos.Aftermath next where
  variant := h.variant
  onBoard := h.onBoard
  ownHand := by rw [h.inHand]
  hands c := Nat.le_of_eq (by rw [h.inHand])
  content := h.content
  marksStay := hmarks
  agrees := h.agrees
  count := h.count

/-- A change that leaves men and marks alone is a possible consequence of a move. -/
theorem SameMen.aftermath {pos next : Position} (h : pos.SameMen next) : pos.Aftermath next :=
  h.lifts.aftermath h.marksStay

/-- The men on the board are still counted right, and no side has more men than it started with. -/
theorem Aftermath.counted {pos next : Position} (h : pos.Aftermath next) {pieceCount : Nat}
    (hcounted : pos.state.Counted pieceCount) : next.state.Counted pieceCount where
  onBoard c := by rw [h.onBoard, h.count, hcounted.onBoard]
  within c := by
    have hhand := h.hands c
    have hwithin := hcounted.within c
    rw [h.onBoard]
    omega

/-! ## Stages of the game -/

/-- Nothing has happened yet: the board is empty, and a placement is expected. -/
structure Untouched (pos : Position) : Prop where
  phase : pos.state.phase = .ready
  action : pos.state.action = .place
  owes : ∀ c, pos.state.owed.get c = 0
  quiet : pos.state.quiet = 0
  content : ∀ p, pos.contentAt p = .empty

/-- Where a game stands: it has not begun, it goes on, or it is over. While it goes on, the action
fits, and the limit on quiet moves is reached by nothing but a slide that earns a removal. -/
inductive Stage (pos : Position) : Prop
  | untouched : pos.Untouched → Stage pos
  | going : pos.Turned → pos.state.quiet < pos.rule.moveLimit ∨
      (pos.state.action = .remove ∧ pos.state.quiet ≤ pos.rule.moveLimit) → Stage pos
  | finished : pos.state.phase = .finished → Stage pos

/-- A settled position is in one of the stages of a game. -/
theorem Settled.stage {pos : Position} (h : pos.Settled) : pos.Stage := by
  rcases h with hover | ⟨hturned, hquiet⟩
  · exact .finished hover
  · exact .going hturned (Or.inl hquiet)

theorem Stage.untouched_of_ready {pos : Position} (h : pos.Stage)
    (hready : pos.state.phase = .ready) : pos.Untouched := by
  cases h with
  | untouched huntouched => exact huntouched
  | going hturned _ => rcases hturned.inProgress with h | h <;> rw [hready] at h <;> cases h
  | finished hover =>
      rw [hready] at hover
      cases hover

/-- While a game goes on, the action fits. -/
theorem Stage.turned_of {pos : Position} (h : pos.Stage)
    (hphase : pos.state.phase = .placing ∨ pos.state.phase = .moving) : pos.Turned ∧
      (pos.state.quiet < pos.rule.moveLimit ∨
        (pos.state.action = .remove ∧ pos.state.quiet ≤ pos.rule.moveLimit)) := by
  cases h with
  | untouched huntouched =>
      rcases hphase with h | h <;> rw [huntouched.phase] at h <;> cases h
  | going hturned hquiet => exact ⟨hturned, hquiet⟩
  | finished hover => rcases hphase with h | h <;> rw [hover] at h <;> cases h

/-- The limit on quiet moves is not reached while a man is placed or slid. -/
theorem Stage.quiet_lt {pos : Position} (h : pos.Stage)
    (hphase : pos.state.phase = .placing ∨ pos.state.phase = .moving)
    (haction : pos.state.action ≠ .remove) : pos.state.quiet < pos.rule.moveLimit := by
  rcases (h.turned_of hphase).2 with hquiet | ⟨hremove, _⟩
  · exact hquiet
  · exact absurd hremove haction

/-- While men are placed and none is to be removed, a placement is expected. -/
theorem Stage.place_of_placing {pos : Position} (h : pos.Stage)
    (hphase : pos.state.phase = .placing) (haction : pos.state.action ≠ .remove) :
    pos.state.action = .place := by
  have hnot := (h.turned_of (Or.inl hphase)).1.placing hphase
  cases hact : pos.state.action with
  | select => exact absurd hact hnot
  | place => rfl
  | remove => exact absurd hact haction

/-- All that decides the stage of the game, apart from the board, is as in the first position. -/
structure SameStage (pos next : Position) : Prop where
  variant : next.variant = pos.variant
  side : next.state.side = pos.state.side
  owed : next.state.owed = pos.state.owed
  phase : next.state.phase = pos.state.phase
  action : next.state.action = pos.state.action
  quiet : next.state.quiet = pos.state.quiet

/-- The stage stays if all that decides it does, and an empty board stays empty. -/
theorem SameStage.stage {pos next : Position} (hsame : pos.SameStage next) (h : pos.Stage)
    (hempty : (∀ q, pos.contentAt q = .empty) → ∀ q, next.contentAt q = .empty) :
    next.Stage := by
  have hrule : next.rule = pos.rule := congrArg Variant.rule hsame.variant
  cases h with
  | untouched huntouched =>
      refine .untouched ⟨?_, ?_, ?_, ?_, hempty huntouched.content⟩
      · rw [hsame.phase, huntouched.phase]
      · rw [hsame.action, huntouched.action]
      · intro c
        rw [hsame.owed, huntouched.owes]
      · rw [hsame.quiet, huntouched.quiet]
  | going hturned hquiet =>
      refine .going ⟨?_, ?_, ?_⟩ ?_
      · rw [hsame.phase]
        exact hturned.inProgress
      · rw [hsame.phase, hsame.action]
        exact hturned.placing
      · rw [hsame.action, hsame.owed, hsame.side]
        exact hturned.owes
      · rw [hsame.quiet, hrule, hsame.action]
        exact hquiet
  | finished hover =>
      apply Stage.finished
      rw [hsame.phase, hover]

/-- The men and all that decides the turn are those of the first position. -/
structure SameTurn (pos next : Position) : Prop extends SameMen pos next, SameStage pos next where
  takesOwn : next.state.takesOwn = pos.state.takesOwn
  frees : next.state.freesMover = pos.state.freesMover
  key : next.state.key = pos.state.key

theorem sameTurn_release (pos : Position) : pos.SameTurn pos.release :=
  ⟨⟨rfl, rfl, rfl⟩, rfl, rfl, rfl, rfl, rfl, rfl, rfl⟩

theorem sameTurn_log (pos : Position) (m : Move) : pos.SameTurn (pos.log m) :=
  ⟨⟨rfl, rfl, rfl⟩, rfl, rfl, rfl, rfl, rfl, rfl, rfl⟩

theorem sameTurn_remember (pos : Position) (slid : Option (Point × Point)) :
    pos.SameTurn (pos.remember slid) :=
  ⟨⟨rfl, rfl, rfl⟩, rfl, rfl, rfl, rfl, rfl, rfl, rfl⟩

/-- The key stays right if men, turn and key are the same. -/
theorem SameTurn.keyExact {pos next : Position} (hsame : pos.SameTurn next) (h : pos.KeyExact) :
    next.KeyExact := by
  have hcontent : next.contentAt = pos.contentAt := funext hsame.content
  rw [KeyExact, keyFromScratch, sidedKey, owedBits, hcontent, hsame.side, hsame.owed,
    hsame.takesOwn, hsame.key]
  exact h

/-! ## Mills and removals earned -/

theorem sameTurn_scoreMills (pos : Position) (p : Point) (c : Side) :
    pos.SameTurn (pos.scoreMills p c).2 := by
  simp only [scoreMills]
  split
  · exact ⟨⟨rfl, rfl, rfl⟩, rfl, rfl, rfl, rfl, rfl, rfl, rfl⟩
  · exact ⟨⟨rfl, rfl, rfl⟩, rfl, rfl, rfl, rfl, rfl, rfl, rfl⟩

/-- A mill always earns a removal. -/
theorem removalsEarned_ne_zero (rule : Rule) {n : Nat} (hn : n ≠ 0) :
    removalsEarned rule n ≠ 0 := by
  simp only [removalsEarned]
  split
  · exact hn
  · exact Nat.one_ne_zero

theorem sameMen_oweRemovals (pos : Position) (n : Nat) : pos.SameMen (pos.oweRemovals n) :=
  ⟨rfl, rfl, rfl⟩

theorem keyExact_oweRemovals {pos : Position} (h : pos.KeyFollows) (n : Nat) :
    (pos.oweRemovals n).KeyExact := by
  have howed : (pos.mapState fun s => { s with owed := s.owed.set s.side n }).KeyFollows := h
  exact keyExact_refreshKey howed

/-- A side that has earned removals is in a game that goes on. -/
theorem stage_oweRemovals {pos : Position}
    (hphase : pos.state.phase = .placing ∨ pos.state.phase = .moving) {n : Nat} (hn : n ≠ 0)
    (hquiet : pos.state.quiet ≤ pos.rule.moveLimit) : (pos.oweRemovals n).Stage := by
  have howed : (pos.oweRemovals n).state.owed.get (pos.oweRemovals n).state.side = n :=
    PerSide.get_set_self pos.state.owed pos.state.side n
  have haction : (pos.oweRemovals n).state.action = .remove := rfl
  have hturned : (pos.oweRemovals n).Turned := by
    refine ⟨hphase, fun _ => ?_, ?_⟩
    · rw [haction]
      nofun
    · rw [haction, howed]
      exact ⟨fun _ => hn, fun _ => rfl⟩
  exact .going hturned (Or.inr ⟨haction, hquiet⟩)

/-! ## The end of placing -/

/-- Once men are slid and the hands are empty, settling does not lead back to placing. -/
theorem Settling.not_placing {pos next : Position} (h : pos.Settling next)
    (hphase : pos.state.phase = .moving) (hhands : ∀ c, pos.state.inHand.get c = 0) :
    next.state.phase ≠ .placing := by
  -- turning to removal keeps the phase
  have hkept : ∀ q : Position, q.state.phase = .moving →
      q.turnToRemoval.state.phase ≠ .placing := by
    intro q hq
    have hsame : q.turnToRemoval.state.phase = q.state.phase := by
      simp only [turnToRemoval]
      split <;> rfl
    rw [hsame, hq]
    decide
  cases h with
  | idle _ =>
      rw [hphase]
      decide
  | finished winner ending => exact Phase.noConfusion
  | passed _ => exact hkept _ (moving_giveTurn (hhands _))
  | freed frees _ _ => exact hkept _ hphase
  | kept _ _ => exact hkept pos hphase

/-- The end of placing, settled or not, lifts marks at most, and leaves the placing phase. -/
theorem PlacingEnd.lifts_settle {pos ended : Position} (h : pos.PlacingEnd ended)
    (hagrees : pos.state.Agrees) (hdone : pos.isPlacingDone = true) :
    (pos.Lifts ended ∧ pos.MarksStay ended) ∧
      (pos.Lifts ended.settle ∧ pos.MarksStay ended.settle) := by
  have hlifts := h.lifts hagrees
  have hmoving := h.moving hagrees hdone
  have hplacing : pos.state.phase = .placing := by
    simp only [isPlacingDone, Bool.and_eq_true, beq_iff_eq] at hdone
    exact hdone.1.1.1.1
  have hhands : ∀ c, ended.state.inHand.get c = 0 := by
    intro c
    rw [hlifts.inHand]
    exact hands_of_isPlacingDone hdone c
  refine ⟨⟨hlifts, Or.inr ⟨hplacing, ?_⟩⟩, hlifts.trans (sameMen_settle ended).lifts,
    Or.inr ⟨hplacing, (settling_settle ended).not_placing hmoving hhands⟩⟩
  rw [hmoving]
  decide

/-- The end of placing is followed by a settled position. -/
theorem PlacingEnd.settled {pos ended : Position} (h : pos.PlacingEnd ended) :
    ended.settle.Settled := by
  have hturned := h.turned
  exact settled_settle hturned.inProgress hturned.placing hturned.owes.1

/-- A turn that passes, with or without the end of placing, moves no man. -/
theorem lifts_endPlacingOrPass {pos : Position} (hagrees : pos.state.Agrees) :
    pos.Lifts pos.endPlacingOrPass.settle ∧ pos.MarksStay pos.endPlacingOrPass.settle := by
  rcases endPlacingOrPass_cases pos with ⟨hdone, hend⟩ | hpass
  · exact (hend.lifts_settle hagrees hdone).2
  · rw [hpass]
    have hsame := (sameMen_giveTurn pos _).trans (sameMen_settle pos.passTurn)
    exact ⟨hsame.lifts, hsame.marksStay⟩

theorem keyExact_endPlacingOrPass {pos : Position} (hagrees : pos.state.Agrees)
    (hkey : pos.KeyExact) : pos.endPlacingOrPass.settle.KeyExact := by
  apply keyExact_settle
  rcases endPlacingOrPass_cases pos with ⟨_, hend⟩ | hpass
  · exact hend.keyExact hagrees hkey
  · rw [hpass]
    exact keyExact_passTurn hkey.follows

/-- A turn that passes, with or without the end of placing, leaves a settled position. -/
theorem settled_endPlacingOrPass (pos : Position) : pos.endPlacingOrPass.settle.Settled := by
  rcases endPlacingOrPass_cases pos with ⟨_, hend⟩ | hpass
  · exact hend.settled
  · rw [hpass]
    have hturned : pos.passTurn.Turned := turned_giveTurn pos pos.state.side.other
    exact settled_settle hturned.inProgress hturned.placing hturned.owes.1

/-! ## Removals from the hand -/

/-- Raiding the other side's hand comes before the rest and touches nothing on the board. -/
theorem Aftermath.of_raidHand {pos next : Position} {n : Nat}
    (h : (pos.raidHand n).Aftermath next) : pos.Aftermath next := by
  have hside : (pos.raidHand n).state.side = pos.state.side := rfl
  have hhand : (pos.raidHand n).state.inHand = pos.state.inHand.set pos.state.side.other
      (pos.state.inHand.get pos.state.side.other -
        min n (pos.state.inHand.get pos.state.side.other)) := rfl
  have hown : (pos.raidHand n).state.inHand.get pos.state.side =
      pos.state.inHand.get pos.state.side := by
    rw [hhand]
    exact PerSide.get_set_of_ne _ _ (Side.other_ne _).symm
  constructor
  case variant => exact h.variant
  case onBoard => exact h.onBoard
  case ownHand =>
    have hnext := h.ownHand
    rw [hside, hown] at hnext
    exact hnext
  case hands =>
    intro c
    refine Nat.le_trans (h.hands c) ?_
    -- the raid takes from the hand of the other side and never adds to it
    rcases Side.eq_or_eq_other c pos.state.side with rfl | rfl
    · exact Nat.le_of_eq hown
    · rw [hhand, PerSide.get_set_self]
      exact Nat.sub_le _ _
  case content => exact h.content
  case marksStay => exact h.marksStay
  case agrees => exact fun ha => h.agrees ⟨ha.outside, ha.men, ha.marked, ha.occupied⟩
  case count => exact h.count

theorem keyExact_raidHand {pos : Position} (h : pos.KeyExact) (n : Nat) :
    (pos.raidHand n).KeyExact := by
  apply keyExact_refreshKey
  exact h.follows

/-- What a raid on the other side's hand ends in. -/
inductive Raid (rest : Position) : Position → Prop
  /-- The hand falls short, and the rest is owed on the board. -/
  | owed : rest.state.owed.get rest.state.side ≠ 0 →
      Raid rest (rest.mapState fun s => { s with action := .remove })
  | ended {ended : Position} : rest.isPlacingDone = true → rest.PlacingEnd ended →
      Raid rest ended.settle
  | passed : Raid rest rest.passTurn.settle
  | kept : Raid rest rest.settle

/-- The inversion of `takeFromHand`: the hand falls short, placing ends, the turn passes, or the
side that closed a mill goes on. -/
theorem raid_takeFromHand (pos : Position) (n : Nat) :
    (pos.raidHand n).Raid (pos.takeFromHand n) := by
  have howed : (pos.raidHand n).state.owed.get (pos.raidHand n).state.side =
      n - min n (pos.state.inHand.get pos.state.side.other) :=
    PerSide.get_set_self pos.state.owed pos.state.side _
  simp only [takeFromHand]
  split
  · rename_i hshort
    -- what the hand could not give stays owed
    apply Raid.owed
    rw [howed]
    omega
  · split
    · rename_i ended hended
      obtain ⟨hdone, hend⟩ := placingEnd_of_endPlacing hended
      exact .ended hdone hend
    · split
      · exact .passed
      · exact .kept

/-- A raid on the hand moves no man on the board. -/
theorem Raid.aftermath {rest next : Position} (h : rest.Raid next) (hagrees : rest.state.Agrees) :
    rest.Aftermath next := by
  cases h with
  | owed _ =>
      have hsame : rest.SameMen (rest.mapState fun s => { s with action := .remove }) :=
        ⟨rfl, rfl, rfl⟩
      exact hsame.aftermath
  | ended hdone hend =>
      obtain ⟨hlifts, hmarks⟩ := (hend.lifts_settle hagrees hdone).2
      exact hlifts.aftermath hmarks
  | passed => exact ((sameMen_giveTurn rest _).trans (sameMen_settle _)).aftermath
  | kept => exact (sameMen_settle rest).aftermath

/-- A raid on the hand keeps the key right. -/
theorem Raid.keyExact {rest next : Position} (h : rest.Raid next) (hagrees : rest.state.Agrees)
    (hkey : rest.KeyExact) : next.KeyExact := by
  cases h with
  | owed _ => exact hkey
  | ended _ hend => exact keyExact_settle (hend.keyExact hagrees hkey)
  | passed => exact keyExact_settle (keyExact_passTurn hkey.follows)
  | kept => exact keyExact_settle hkey

/-- A raid on the hand leads to a stage of the game. -/
theorem Raid.stage {rest next : Position} (h : rest.Raid next)
    (hphase : rest.state.phase = .placing) (haction : rest.state.action = .place)
    (hquiet : rest.state.quiet < rest.rule.moveLimit) : next.Stage := by
  cases h with
  | owed howed =>
      refine .going ⟨Or.inl hphase, nofun, fun _ => howed, fun _ => rfl⟩ (Or.inl hquiet)
  | ended _ hend => exact hend.settled.stage
  | passed =>
      have hturned : rest.passTurn.Turned := turned_giveTurn rest rest.state.side.other
      exact (settled_settle hturned.inProgress hturned.placing hturned.owes.1).stage
  | kept =>
      have hsettled : rest.settle.Settled := by
        apply settled_settle (Or.inl hphase)
        · rw [haction]
          nofun
        · rw [haction]
          nofun
      exact hsettled.stage

/-! ## After a placement -/

/-- What can follow a placement. -/
inductive AfterDrop (pos : Position) : Position → Prop
  /-- The turn passes, and placing may end. -/
  | calm : AfterDrop pos pos.endPlacingOrPass.settle
  /-- The board is full. -/
  | full : AfterDrop pos pos.resolveFullBoard
  /-- Removals are taken from the other side's hand. -/
  | raid (n : Nat) : AfterDrop pos (pos.takeFromHand n)
  /-- Removals are owed on the board. -/
  | owed {n : Nat} : n ≠ 0 → AfterDrop pos (pos.oweRemovals n)

/-- The inversion of `afterDrop`. -/
theorem afterDrop_cases (pos : Position) (n : Nat) : pos.AfterDrop (pos.afterDrop n) := by
  simp only [afterDrop]
  split
  · exact .calm
  · split
    · split
      · exact .full
      · exact .calm
    · rename_i hn
      split
      · exact .raid _
      · exact .raid _
      · exact .owed (removalsEarned_ne_zero pos.rule hn)

theorem agrees_raidHand {pos : Position} (h : pos.state.Agrees) (n : Nat) :
    (pos.raidHand n).state.Agrees :=
  ⟨h.outside, h.men, h.marked, h.occupied⟩

/-- What follows a placement moves no other man. -/
theorem AfterDrop.aftermath {pos next : Position} (h : pos.AfterDrop next)
    (hagrees : pos.state.Agrees) : pos.Aftermath next := by
  cases h with
  | calm =>
      obtain ⟨hlifts, hmarks⟩ := lifts_endPlacingOrPass hagrees
      exact hlifts.aftermath hmarks
  | full => exact (sameMen_resolveFullBoard pos).aftermath
  | raid n => exact ((raid_takeFromHand pos n).aftermath (agrees_raidHand hagrees n)).of_raidHand
  | owed _ => exact (sameMen_oweRemovals pos _).aftermath

/-- What follows a placement keeps the key right. -/
theorem AfterDrop.keyExact {pos next : Position} (h : pos.AfterDrop next)
    (hagrees : pos.state.Agrees) (hkey : pos.KeyExact) : next.KeyExact := by
  cases h with
  | calm => exact keyExact_endPlacingOrPass hagrees hkey
  | full => exact keyExact_resolveFullBoard hkey
  | raid n =>
      exact (raid_takeFromHand pos n).keyExact (agrees_raidHand hagrees n)
        (keyExact_raidHand hkey n)
  | owed _ => exact keyExact_oweRemovals hkey.follows _

/-- What follows a placement leads to a stage of the game. -/
theorem AfterDrop.stage {pos next : Position} (h : pos.AfterDrop next)
    (hphase : pos.state.phase = .placing) (haction : pos.state.action = .place)
    (hquiet : pos.state.quiet < pos.rule.moveLimit) : next.Stage := by
  cases h with
  | calm => exact (settled_endPlacingOrPass pos).stage
  | full => exact (settled_resolveFullBoard hquiet).stage
  | raid n => exact (raid_takeFromHand pos n).stage hphase haction hquiet
  | owed hn => exact stage_oweRemovals (Or.inl hphase) hn (Nat.le_of_lt hquiet)

/-! ## After a slide -/

/-- What can follow a slide. -/
inductive AfterShift (pos : Position) : Position → Prop
  /-- The turn passes. -/
  | calm (slid : Option (Point × Point)) : AfterShift pos (pos.remember slid).passTurn.settle
  /-- Removals are owed. -/
  | owed {n : Nat} (slid : Option (Point × Point)) : n ≠ 0 →
      AfterShift pos ((pos.remember slid).oweRemovals n)

theorem remember_self (pos : Position) :
    pos.remember (pos.state.lastMill.get pos.state.side) = pos := by
  have hsame : pos.state.lastMill.set pos.state.side (pos.state.lastMill.get pos.state.side) =
      pos.state.lastMill := by
    cases pos.state.side <;> rfl
  rw [remember, mapState, hsame]

/-- The inversion of `afterShift`. -/
theorem afterShift_cases (pos : Position) (a b : Point) (opened n : Nat) :
    pos.AfterShift (pos.afterShift a b opened n) := by
  simp only [afterShift]
  split
  · exact .calm none
  · rename_i hn
    have hearned := removalsEarned_ne_zero pos.rule hn
    split
    · exact .owed _ hearned
    · have howed : pos.AfterShift ((pos.remember _).oweRemovals (removalsEarned pos.rule n)) :=
        .owed (pos.state.lastMill.get pos.state.side) hearned
      rw [remember_self] at howed
      exact howed

theorem sameMen_remember (pos : Position) (slid : Option (Point × Point)) :
    pos.SameMen (pos.remember slid) :=
  ⟨rfl, rfl, rfl⟩

theorem AfterShift.sameMen {pos next : Position} (h : pos.AfterShift next) : pos.SameMen next := by
  cases h with
  | calm slid =>
      exact ((sameMen_remember pos slid).trans (sameMen_giveTurn _ _)).trans (sameMen_settle _)
  | owed slid _ => exact (sameMen_remember pos slid).trans (sameMen_oweRemovals _ _)

theorem AfterShift.keyExact {pos next : Position} (h : pos.AfterShift next)
    (hkey : pos.KeyExact) : next.KeyExact := by
  have hremember : ∀ slid, (pos.remember slid).KeyExact := fun _ => hkey
  cases h with
  | calm slid => exact keyExact_settle (keyExact_passTurn (hremember slid).follows)
  | owed slid _ => exact keyExact_oweRemovals (hremember slid).follows _

/-- What follows a slide leads to a stage of the game, with the limit on quiet moves reached at most
when a removal has been earned. -/
theorem AfterShift.stage {pos next : Position} (h : pos.AfterShift next)
    (hphase : pos.state.phase = .placing ∨ pos.state.phase = .moving)
    (hquiet : pos.state.quiet ≤ pos.rule.moveLimit) : next.Stage := by
  cases h with
  | calm slid =>
      have hturned := turned_giveTurn (pos.remember slid) (pos.remember slid).state.side.other
      exact (settled_settle hturned.inProgress hturned.placing hturned.owes.1).stage
  | owed slid hn =>
      have hremembered : (pos.remember slid).state.phase = .placing ∨
          (pos.remember slid).state.phase = .moving := hphase
      exact stage_oweRemovals hremembered hn hquiet

/-! ## After a removal -/

/-- How the turn goes on once the last owed removal is made. -/
inductive AfterRemovals (pos : Position) : Position → Prop
  | ended {ended : Position} : pos.isPlacingDone = true → pos.PlacingEnd ended →
      AfterRemovals pos ended
  /-- A side that freed itself moves on. -/
  | kept : AfterRemovals pos (pos.mapState fun s => { s with freesMover := false }).keepTurn
  | passed : AfterRemovals pos pos.passTurn

/-- The inversion of `afterRemovals`. -/
theorem afterRemovals_cases (pos : Position) : pos.AfterRemovals pos.afterRemovals := by
  simp only [afterRemovals]
  split
  · rename_i ended hended
    obtain ⟨hdone, hend⟩ := placingEnd_of_endPlacing hended
    exact .ended hdone hend
  · split
    · exact .kept
    · exact .passed

/-- Whoever moves on after the last removal, no man is moved; settling changes nothing in that. -/
theorem AfterRemovals.lifts {pos next : Position} (h : pos.AfterRemovals next)
    (hagrees : pos.state.Agrees) :
    (pos.Lifts next ∧ pos.MarksStay next) ∧
      (pos.Lifts next.settle ∧ pos.MarksStay next.settle) := by
  have hsame : ∀ turned, pos.SameMen turned →
      (pos.Lifts turned ∧ pos.MarksStay turned) ∧
        (pos.Lifts turned.settle ∧ pos.MarksStay turned.settle) := by
    intro turned hturned
    have hsettle := hturned.trans (sameMen_settle turned)
    exact ⟨⟨hturned.lifts, hturned.marksStay⟩, hsettle.lifts, hsettle.marksStay⟩
  cases h with
  | ended hdone hend => exact hend.lifts_settle hagrees hdone
  | kept => exact hsame _ ⟨rfl, rfl, rfl⟩
  | passed => exact hsame _ ⟨rfl, rfl, rfl⟩

theorem AfterRemovals.keyExact {pos next : Position} (h : pos.AfterRemovals next)
    (hagrees : pos.state.Agrees) (hkey : pos.KeyExact) : next.KeyExact := by
  cases h with
  | ended _ hend => exact hend.keyExact hagrees hkey
  | kept =>
      have hfollows : (pos.mapState fun s => { s with freesMover := false }).KeyFollows :=
        hkey.follows
      exact keyExact_keepTurn hfollows
  | passed => exact keyExact_passTurn hkey.follows

theorem AfterRemovals.turned {pos next : Position} (h : pos.AfterRemovals next) : next.Turned := by
  cases h with
  | ended _ hend => exact hend.turned
  | kept => exact turned_giveTurn _ _
  | passed => exact turned_giveTurn _ _

/-- What can follow a removal. -/
inductive AfterTaking (pos : Position) : Position → Prop
  /-- The side that lost a man is beaten. -/
  | beaten (winner : Colour) (ending : Ending) : AfterTaking pos (pos.finish winner ending)
  /-- More removals are owed. -/
  | more : pos.state.owed.get pos.state.side ≠ 0 → AfterTaking pos pos
  /-- The turn is decided; a man is placed or removed next. -/
  | turned {turned : Position} : pos.AfterRemovals turned → AfterTaking pos turned
  /-- The turn is decided and settled. -/
  | settled {turned : Position} : pos.AfterRemovals turned → AfterTaking pos turned.settle

/-- The inversion of `afterTaking`. -/
theorem afterTaking_cases (pos : Position) (target : Side) :
    pos.AfterTaking (pos.afterTaking target) := by
  simp only [afterTaking]
  split
  · exact .beaten _ _
  · split
    · exact .more ‹_›
    · split
      · exact .settled (afterRemovals_cases pos)
      · exact .turned (afterRemovals_cases pos)

/-- What follows a removal moves no man and at most lifts marks, and lifts them only where placing
ends. -/
theorem AfterTaking.lifts {pos next : Position} (h : pos.AfterTaking next)
    (hagrees : pos.state.Agrees) : pos.Lifts next ∧ pos.MarksStay next := by
  cases h with
  | beaten winner ending =>
      have hsame := sameMen_finish pos winner ending
      exact ⟨hsame.lifts, hsame.marksStay⟩
  | more _ => exact ⟨(SameMen.refl pos).lifts, (SameMen.refl pos).marksStay⟩
  | turned hturned => exact (hturned.lifts hagrees).1
  | settled hturned => exact (hturned.lifts hagrees).2

theorem AfterTaking.keyExact {pos next : Position} (h : pos.AfterTaking next)
    (hagrees : pos.state.Agrees) (hkey : pos.KeyExact) : next.KeyExact := by
  cases h with
  | beaten winner ending => exact keyExact_finish hkey winner ending
  | more _ => exact hkey
  | turned hturned => exact hturned.keyExact hagrees hkey
  | settled hturned => exact keyExact_settle (hturned.keyExact hagrees hkey)

/-- What follows a removal leads to a stage of the game. -/
theorem AfterTaking.stage {pos next : Position} (h : pos.AfterTaking next)
    (hagrees : pos.state.Agrees)
    (hphase : pos.state.phase = .placing ∨ pos.state.phase = .moving)
    (haction : pos.state.action = .remove) (hquiet : pos.state.quiet < pos.rule.moveLimit) :
    next.Stage := by
  cases h with
  | beaten winner ending => exact (settled_finish pos winner ending).stage
  | more howed =>
      refine .going ⟨hphase, ?_, fun _ => howed, fun _ => haction⟩ (Or.inl hquiet)
      rw [haction]
      nofun
  -- the limits are looked at before the removal, so the count is still below
  | turned hturned =>
      refine .going hturned.turned (Or.inl ?_)
      have hlifts := (hturned.lifts hagrees).1.1
      rw [hlifts.quiet, hlifts.rule]
      exact hquiet
  | settled hturned =>
      have hfits := hturned.turned
      exact (settled_settle hfits.inProgress hfits.placing hfits.owes.1).stage

end Morris.Position
