import Morris.Position.Turn
import Morris.Proofs.Key
import Morris.Proofs.Layout
import Mathlib.Tactic.SplitIfs

/-!
# What the changes of turn keep

Passing the turn, ending the game, owing removals and settling a blocked side leave the men where
they are. `Position.SameMen` records that frame once for each of these operations; only the end of
placing may in addition lift marks, which `Position.Lifts` describes.

The other two properties carried through are the key and the turn. `Position.KeyFollows` says that
the key is right up to its four highest bits and `Position.KeyExact` that it is right altogether;
whatever changes the owed removals or the side takes the first to the second. `Position.Turned` says
that the action fits the phase and the owed removals; `settle` then either ends the game or leaves
it with the limit on quiet moves not yet reached (`Position.settled_settle`).
-/

set_option autoImplicit false

namespace Morris.Position

/-! ## What settling does -/

/-- No rule ends the game: it is in progress, both sides have men enough, and no limit on quiet
moves is reached. -/
structure GoesOn (pos : Position) : Prop where
  inProgress : pos.state.phase = .placing ∨ pos.state.phase = .moving
  unbeaten : ∀ c, pos.isBeaten c = false
  quiet : pos.state.quiet < pos.rule.moveLimit
  endgame : pos.isEndgameLimitReached = false

/-- No rule ends the game, and the side to move can slide nowhere. -/
structure Stuck (pos : Position) : Prop extends GoesOn pos where
  moving : pos.state.phase = .moving
  action : pos.state.action = .select
  blocked : pos.isBlocked pos.state.side = true

/-- What `settle` can make of a position. -/
inductive Settling (pos : Position) : Position → Prop
  /-- Nothing, before the first move and after the last. -/
  | idle : pos.state.phase = .ready ∨ pos.state.phase = .finished → Settling pos pos
  /-- The game ends. -/
  | finished (winner : Colour) (ending : Ending) : Settling pos (pos.finish winner ending)
  /-- A blocked side passes. -/
  | passed : pos.Stuck → Settling pos pos.passTurn.turnToRemoval
  /-- A blocked side is to remove a man, and may move on afterwards if `frees` says so. -/
  | freed (frees : Bool) : pos.Stuck →
      pos.rule.stalemateAction = .removeAndMove ∨
        (pos.rule.stalemateAction = .removeAndPass ∧ frees = pos.state.freesMover) →
      Settling pos
        (pos.mapState fun s => { s with freesMover := frees }).oweFreeing.turnToRemoval
  /-- The side to move goes on, by a removal if it owes one, and otherwise it is not blocked. -/
  | kept : pos.GoesOn → (pos.state.phase = .moving → pos.state.action = .select →
      pos.isBlocked pos.state.side = false) → Settling pos pos.turnToRemoval

/-- Each of the five ways to treat a blocked side is one of those a settling allows. -/
theorem settling_resolveBlocked {pos : Position} (h : pos.Stuck) :
    pos.Settling pos.resolveBlocked := by
  simp only [resolveBlocked]
  split
  · exact .finished _ _
  · exact .finished _ _
  · exact .passed h
  · exact .freed true h (Or.inl ‹_›)
  · exact .freed pos.state.freesMover h (Or.inr ⟨‹_›, rfl⟩)

/-- The inversion of `settle`: later proofs split on the five ways in which a position is settled
and not on the branches of the definition. -/
theorem settling_settle (pos : Position) : pos.Settling pos.settle := by
  simp only [settle]
  split
  · exact .idle (Or.inl ‹_›)
  · exact .idle (Or.inr ‹_›)
  · rename_i hready hfinished
    split_ifs with hwhite hblack hlimit hendgame
    · exact .finished _ _
    · exact .finished _ _
    · exact .finished _ _
    · exact .finished _ _
    -- in the branches that are left no rule has ended the game
    all_goals
      have hgoes : pos.GoesOn := by
        refine ⟨?_, ?_, Nat.lt_of_not_le hlimit, eq_false_of_ne_true hendgame⟩
        · cases hphase : pos.state.phase with
          | ready => exact absurd hphase hready
          | placing => exact Or.inl rfl
          | moving => exact Or.inr rfl
          | finished => exact absurd hphase hfinished
        · intro c
          cases c with
          | white => exact eq_false_of_ne_true hwhite
          | black => exact eq_false_of_ne_true hblack
    · rename_i hblocked
      simp only [Bool.and_eq_true, beq_iff_eq] at hblocked
      exact settling_resolveBlocked ⟨hgoes, hblocked.1.1, hblocked.1.2, hblocked.2⟩
    · rename_i hfree
      refine .kept hgoes fun hmoving haction => ?_
      simpa [hmoving, haction] using hfree

/-! ## The frame of a change of turn -/

/-- The men and marks, the variant and the count of quiet moves are those of the first position. -/
structure SameMen (pos next : Position) : Prop where
  variant : next.variant = pos.variant
  layout : next.state.toLayout = pos.state.toLayout
  quiet : next.state.quiet = pos.state.quiet

theorem SameMen.refl (pos : Position) : pos.SameMen pos := ⟨rfl, rfl, rfl⟩

theorem SameMen.trans {pos mid next : Position} (h : pos.SameMen mid) (h' : mid.SameMen next) :
    pos.SameMen next :=
  ⟨h'.variant.trans h.variant, h'.layout.trans h.layout, h'.quiet.trans h.quiet⟩

theorem SameMen.rule {pos next : Position} (h : pos.SameMen next) : next.rule = pos.rule :=
  congrArg Variant.rule h.variant

theorem SameMen.content {pos next : Position} (h : pos.SameMen next) (p : Point) :
    next.contentAt p = pos.contentAt p := by
  rw [contentAt, contentAt, h.layout]

theorem sameMen_giveTurn (pos : Position) (c : Side) : pos.SameMen (pos.giveTurn c) :=
  ⟨rfl, rfl, rfl⟩

theorem sameMen_finish (pos : Position) (winner : Colour) (ending : Ending) :
    pos.SameMen (pos.finish winner ending) :=
  ⟨rfl, rfl, rfl⟩

theorem sameMen_oweForMills (pos : Position) : pos.SameMen pos.oweForMills := ⟨rfl, rfl, rfl⟩

theorem sameMen_oweFreeing (pos : Position) : pos.SameMen pos.oweFreeing := ⟨rfl, rfl, rfl⟩

/-- Turning to a removal changes the action at most. -/
theorem sameMen_turnToRemoval (pos : Position) : pos.SameMen pos.turnToRemoval := by
  simp only [turnToRemoval]
  split
  · exact SameMen.refl pos
  · exact ⟨rfl, rfl, rfl⟩

/-- However a position is settled, no man or mark is moved. -/
theorem Settling.sameMen {pos next : Position} (h : pos.Settling next) : pos.SameMen next := by
  cases h with
  | idle _ => exact SameMen.refl pos
  | finished winner ending => exact sameMen_finish pos winner ending
  | passed _ => exact (sameMen_giveTurn pos _).trans (sameMen_turnToRemoval _)
  | freed frees _ _ =>
      have hmark : pos.SameMen (pos.mapState fun s => { s with freesMover := frees }) :=
        ⟨rfl, rfl, rfl⟩
      exact (hmark.trans (sameMen_oweFreeing _)).trans (sameMen_turnToRemoval _)
  | kept _ _ => exact sameMen_turnToRemoval pos

/-- Settling a position moves no man or mark. -/
theorem sameMen_settle (pos : Position) : pos.SameMen pos.settle := (settling_settle pos).sameMen

/-- Neither does what becomes of a full board. -/
theorem sameMen_resolveFullBoard (pos : Position) : pos.SameMen pos.resolveFullBoard := by
  simp only [resolveFullBoard]
  split <;> exact ⟨rfl, rfl, rfl⟩

/-! ## The key -/

/-- The key is right up to its four highest bits. -/
def KeyFollows (pos : Position) : Prop := pos.state.key <<< 4 = pos.sidedKey <<< 4

/-- The key is the one computed from scratch. -/
def KeyExact (pos : Position) : Prop := pos.state.key = pos.keyFromScratch

theorem KeyExact.follows {pos : Position} (h : pos.KeyExact) : pos.KeyFollows := by
  rw [KeyFollows, h, keyFromScratch, Key.shiftLeft_withOwed]

/-- Refreshing the key makes it right if its lower bits are. -/
theorem keyExact_refreshKey {pos : Position} (h : pos.KeyFollows) : pos.refreshKey.KeyExact :=
  Key.withOwed_congr h pos.owedBits

/-- If the key of the board changes by a word and the side stays, the sided key changes by that
word. -/
theorem sidedKey_of_ofBoard {pos next : Position} {w : Key}
    (hboard : Key.ofBoard next.contentAt = Key.ofBoard pos.contentAt ^^^ w)
    (hside : next.state.side = pos.state.side) : next.sidedKey = pos.sidedKey ^^^ w := by
  simp only [sidedKey, hboard, hside]
  split
  · rw [UInt64.xor_assoc, UInt64.xor_comm w, ← UInt64.xor_assoc]
  · rfl

/-- Filling an empty point adds the word of what is put there. -/
theorem sidedKey_fill (pos : Position) {p : Point} (hp : Point.onBoard p = true)
    (hfree : pos.contentAt p = .empty) (c : Content) :
    (pos.fill p c).sidedKey = pos.sidedKey ^^^ Key.word c p := by
  refine sidedKey_of_ofBoard ?_ rfl
  have hcontent : ∀ q, (pos.fill p c).contentAt q = if q = p then c else pos.contentAt q :=
    fun q => Layout.content_fill pos.state.toLayout (Point.lt_of_onBoard hp) c q
  rw [Key.ofBoard_update (f := pos.contentAt) hp, hfree, hcontent p, if_pos rfl, Key.word,
    UInt64.xor_zero]
  intro q hq
  rw [hcontent q, if_neg hq]

/-- Emptying a point takes the word of what stood there off again. -/
theorem sidedKey_vacate (pos : Position) {p : Point} (hp : Point.onBoard p = true) :
    (pos.vacate p).sidedKey = pos.sidedKey ^^^ Key.word (pos.contentAt p) p := by
  refine sidedKey_of_ofBoard ?_ rfl
  have hcontent : ∀ q, (pos.vacate p).contentAt q = if q = p then .empty else pos.contentAt q :=
    fun q => Layout.content_vacate pos.state.toLayout (Point.lt_of_onBoard hp) q
  rw [Key.ofBoard_update (f := pos.contentAt) hp, hcontent p, if_pos rfl]
  · rw [show Key.word .empty p = 0 from rfl, UInt64.xor_zero]
  · intro q hq
    rw [hcontent q, if_neg hq]

/-- The key that `fill` writes is the one computed from scratch. -/
theorem keyExact_fill {pos : Position} (h : pos.KeyExact) {p : Point}
    (hp : Point.onBoard p = true) (hfree : pos.contentAt p = .empty) (c : Content) :
    (pos.fill p c).KeyExact := by
  show pos.state.key ^^^ Key.word c p = (pos.fill p c).sidedKey.withOwed pos.owedBits
  -- the word of a content does not reach the bits of the owed removals
  rw [sidedKey_fill pos hp hfree, Key.withOwed_xor (Key.word_high c p), h, keyFromScratch]

/-- The key that `vacate` writes is the one computed from scratch. -/
theorem keyExact_vacate {pos : Position} (h : pos.KeyExact) {p : Point}
    (hp : Point.onBoard p = true) : (pos.vacate p).KeyExact := by
  show pos.state.key ^^^ Key.word (pos.contentAt p) p =
    (pos.vacate p).sidedKey.withOwed pos.owedBits
  rw [sidedKey_vacate pos hp, Key.withOwed_xor (Key.word_high _ p), h, keyFromScratch]

/-- The key still follows if the board is the same and the word of the side goes in or out with the
turn. -/
theorem keyFollows_congr {pos next : Position} (h : pos.KeyFollows)
    (hlayout : next.state.toLayout = pos.state.toLayout)
    (hkey : next.state.key =
      if pos.state.side = next.state.side then pos.state.key else pos.state.key ^^^ Key.sideWord) :
    next.KeyFollows := by
  have hcontent : next.contentAt = pos.contentAt := by
    funext p
    rw [contentAt, contentAt, hlayout]
  simp only [KeyFollows, sidedKey] at h ⊢
  rw [hcontent, hkey]
  cases hside : pos.state.side <;> cases hnext : next.state.side <;>
    simp only [hside, reduceCtorEq, if_true, if_false] at h ⊢
  case white.white => exact h
  -- the word of the side goes in when the turn goes to Black and comes out when it goes back
  case white.black => rw [Key.xor_shiftLeft, Key.xor_shiftLeft, h]
  case black.white =>
    rw [Key.xor_shiftLeft, h, Key.xor_shiftLeft, UInt64.xor_assoc, UInt64.xor_self, UInt64.xor_zero]
  case black.black => exact h

/-- Giving the turn writes the side and the owed removals into the key. -/
theorem keyExact_giveTurn {pos : Position} (h : pos.KeyFollows) (c : Side) :
    (pos.giveTurn c).KeyExact := by
  apply keyExact_refreshKey
  exact keyFollows_congr h rfl rfl

theorem keyExact_passTurn {pos : Position} (h : pos.KeyFollows) : pos.passTurn.KeyExact :=
  keyExact_giveTurn h _

theorem keyExact_keepTurn {pos : Position} (h : pos.KeyFollows) : pos.keepTurn.KeyExact :=
  keyExact_giveTurn h _

theorem keyExact_finish {pos : Position} (h : pos.KeyExact) (winner : Colour) (ending : Ending) :
    (pos.finish winner ending).KeyExact := h

theorem keyExact_turnToRemoval {pos : Position} (h : pos.KeyExact) :
    pos.turnToRemoval.KeyExact := by
  simp only [turnToRemoval]
  split
  · exact h
  · exact h

theorem keyExact_oweFreeing {pos : Position} (h : pos.KeyFollows) : pos.oweFreeing.KeyExact :=
  keyExact_refreshKey h

/-- However a position is settled, the key stays right. -/
theorem Settling.keyExact {pos next : Position} (h : pos.Settling next) (hkey : pos.KeyExact) :
    next.KeyExact := by
  cases h with
  | idle _ => exact hkey
  | finished winner ending => exact keyExact_finish hkey winner ending
  | passed _ => exact keyExact_turnToRemoval (keyExact_passTurn hkey.follows)
  | freed frees _ _ =>
      have hfollows : (pos.mapState fun s => { s with freesMover := frees }).KeyFollows :=
        hkey.follows
      exact keyExact_turnToRemoval (keyExact_oweFreeing hfollows)
  | kept _ _ => exact keyExact_turnToRemoval hkey

theorem keyExact_settle {pos : Position} (h : pos.KeyExact) : pos.settle.KeyExact :=
  (settling_settle pos).keyExact h

/-- What becomes of a full board keeps the key right: a debt that is written down without it goes in
with the turn that follows. -/
theorem keyExact_resolveFullBoard {pos : Position} (h : pos.KeyExact) :
    pos.resolveFullBoard.KeyExact := by
  have howe : (pos.mapState fun s => { s with owed := .both 1 }).KeyFollows := h.follows
  simp only [resolveFullBoard]
  split
  · exact keyExact_finish h _ _
  · exact keyExact_passTurn howe
  · exact keyExact_keepTurn howe
  -- the debt is written down after the turn has been given, and the turn is given again
  · have hturned := keyExact_giveTurn h.follows (firstMover pos.rule)
    exact keyExact_keepTurn hturned.follows
  · exact keyExact_finish h _ _

/-! ## The turn -/

/-- The action fits the phase and the owed removals of a game in progress. -/
structure Turned (pos : Position) : Prop where
  inProgress : pos.state.phase = .placing ∨ pos.state.phase = .moving
  placing : pos.state.phase = .placing → pos.state.action ≠ .select
  owes : pos.state.action = .remove ↔ pos.state.owed.get pos.state.side ≠ 0

/-- A side that is given the turn is asked for what it owes, and otherwise for a slide or a
placement according to its hand. -/
theorem turned_giveTurn (pos : Position) (c : Side) : (pos.giveTurn c).Turned := by
  have hphase : (pos.giveTurn c).state.phase =
      if pos.state.inHand.get c = 0 then .moving else .placing := rfl
  have haction : (pos.giveTurn c).state.action =
      if pos.state.owed.get c ≠ 0 then .remove
      else if pos.state.inHand.get c = 0 then .select else .place := rfl
  have howed : (pos.giveTurn c).state.owed.get (pos.giveTurn c).state.side =
      pos.state.owed.get c := rfl
  constructor
  case inProgress =>
    rw [hphase]
    split
    · exact Or.inr rfl
    · exact Or.inl rfl
  case placing =>
    rw [hphase, haction]
    split_ifs <;> simp
  case owes =>
    rw [haction, howed]
    split_ifs with howes hhand
    · exact ⟨fun _ => howes, fun _ => rfl⟩
    · exact ⟨nofun, fun h => absurd h howes⟩
    · exact ⟨nofun, fun h => absurd h howes⟩

/-- A side that owes a removal is made to remove. -/
theorem turned_turnToRemoval {pos : Position}
    (hphase : pos.state.phase = .placing ∨ pos.state.phase = .moving)
    (hplacing : pos.state.phase = .placing → pos.state.action ≠ .select)
    (howes : pos.state.action = .remove → pos.state.owed.get pos.state.side ≠ 0) :
    pos.turnToRemoval.Turned := by
  simp only [turnToRemoval]
  split
  · rename_i hzero
    exact ⟨hphase, hplacing, howes, fun h => absurd hzero h⟩
  · rename_i hne
    exact ⟨hphase, fun _ => by simp [mapState], fun _ => hne, fun _ => rfl⟩

/-- The game is over, or it goes on with the limit on quiet moves not reached. -/
def Settled (pos : Position) : Prop :=
  pos.state.phase = .finished ∨ (pos.Turned ∧ pos.state.quiet < pos.rule.moveLimit)

theorem settled_finish (pos : Position) (winner : Colour) (ending : Ending) :
    (pos.finish winner ending).Settled := Or.inl rfl

theorem settled_giveTurn (pos : Position) (c : Side)
    (hquiet : pos.state.quiet < pos.rule.moveLimit) : (pos.giveTurn c).Settled :=
  Or.inr ⟨turned_giveTurn pos c, hquiet⟩

theorem settled_oweFreeing {pos : Position} (hgoes : pos.GoesOn)
    (hmoving : pos.state.phase = .moving) : pos.oweFreeing.turnToRemoval.Settled := by
  have hphase : pos.oweFreeing.state.phase = .moving := hmoving
  have howed : pos.oweFreeing.state.owed.get pos.oweFreeing.state.side = 1 :=
    PerSide.get_set_self pos.state.owed pos.state.side 1
  have hturned : pos.oweFreeing.turnToRemoval.Turned := by
    apply turned_turnToRemoval (Or.inr hphase)
    · intro hplacing
      rw [hphase] at hplacing
      cases hplacing
    · intro _
      rw [howed]
      exact Nat.one_ne_zero
  refine Or.inr ⟨hturned, ?_⟩
  rw [(sameMen_turnToRemoval _).quiet, (sameMen_turnToRemoval _).rule]
  exact hgoes.quiet

/-- If the action fits the phase and a side that is to remove owes a removal, each way of settling
ends the game or leaves the limit on quiet moves out of reach. -/
theorem Settling.settled {pos next : Position} (h : pos.Settling next)
    (hphase : pos.state.phase = .placing ∨ pos.state.phase = .moving)
    (hplacing : pos.state.phase = .placing → pos.state.action ≠ .select)
    (howes : pos.state.action = .remove → pos.state.owed.get pos.state.side ≠ 0) :
    next.Settled := by
  cases h with
  | idle hidle =>
      rcases hidle with h | h <;> rcases hphase with h' | h' <;> rw [h] at h' <;> cases h'
  | finished winner ending => exact settled_finish pos winner ending
  | passed hstuck =>
      have hturned : pos.passTurn.Turned := turned_giveTurn pos pos.state.side.other
      -- the side that gets the turn may itself owe a removal
      have hnext := turned_turnToRemoval hturned.inProgress hturned.placing hturned.owes.1
      refine Or.inr ⟨hnext, ?_⟩
      rw [(sameMen_turnToRemoval _).quiet, (sameMen_turnToRemoval _).rule]
      exact hstuck.quiet
  | freed frees hstuck _ =>
      have hmarked : (pos.mapState fun s => { s with freesMover := frees }).GoesOn :=
        ⟨hstuck.inProgress, hstuck.unbeaten, hstuck.quiet, hstuck.endgame⟩
      exact settled_oweFreeing hmarked hstuck.moving
  | kept hgoes _ =>
      refine Or.inr ⟨turned_turnToRemoval hphase hplacing howes, ?_⟩
      rw [(sameMen_turnToRemoval _).quiet, (sameMen_turnToRemoval _).rule]
      exact hgoes.quiet

/-- Settling a game in progress ends it or leaves it settled. -/
theorem settled_settle {pos : Position}
    (hphase : pos.state.phase = .placing ∨ pos.state.phase = .moving)
    (hplacing : pos.state.phase = .placing → pos.state.action ≠ .select)
    (howes : pos.state.action = .remove → pos.state.owed.get pos.state.side ≠ 0) :
    pos.settle.Settled :=
  (settling_settle pos).settled hphase hplacing howes

/-- A full board ends the game or leaves it settled. -/
theorem settled_resolveFullBoard {pos : Position}
    (hquiet : pos.state.quiet < pos.rule.moveLimit) : pos.resolveFullBoard.Settled := by
  simp only [resolveFullBoard]
  split
  · exact settled_finish pos _ _
  · exact settled_giveTurn _ _ hquiet
  · exact settled_giveTurn _ _ hquiet
  · exact settled_giveTurn _ _ hquiet
  · exact settled_finish pos _ _

end Morris.Position
