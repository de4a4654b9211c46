import Morris.Proofs.Accepted
import Morris.Proofs.Effect
import Morris.Proofs.Finished
import Morris.Proofs.Owed
import Morris.Proofs.Progress.Placing
import Morris.Proofs.Progress.Removing

/-!
# Sides with too few men

A side with fewer men than the rule asks for, the hand included, is beaten. Men are lost in two
ways. A removal on the board tests the side that has lost a man at once, and a raid on the hand is
settled by the rules that end the game. But where the hand falls short of what several mills have
earned, the men are taken from it, the rest is owed on the board, and nothing is tested: the side is
`Overdrawn`, and its loss is found at the next removal.

`Position.Supplied` is what all accepted moves keep: the game is over, or no side is beaten, or the
placement just made has overdrawn one. The main result is `Position.played_short`, which says of
every side with too few men that it is overdrawn and that whatever move comes next ends the game.
`Position.not_forall_played_sufficient` is an overdrawn side.
-/

set_option autoImplicit false

namespace Morris.Position

variable {pos next : Position} {p : Point}

/-- The game is over, or no side is beaten. -/
def OverOrUnbeaten (pos : Position) : Prop :=
  pos.state.phase = .finished ∨ ∀ c, pos.isBeaten c = false

/-- Several mills have taken the last men from the hand of a side, which has too few now, and more
is to be taken from it on the board. -/
structure Overdrawn (pos : Position) (c : Side) : Prop where
  raids : pos.rule.millAction = .takeFromHandAndPass ∨ pos.rule.millAction = .takeFromHandAndMove
  several : pos.rule.mayRemoveMultiple = true
  phase : pos.state.phase = .placing
  side : pos.state.side = c.other
  action : pos.state.action = .remove
  hand : pos.state.inHand.get c = 0
  beaten : pos.isBeaten c = true
  /-- The side that raids has men enough. -/
  spared : pos.isBeaten c.other = false

/-- The game is over, no side is beaten, or the placement just made has overdrawn a hand. -/
def Supplied (pos : Position) : Prop :=
  pos.OverOrUnbeaten ∨ ∃ c, pos.Overdrawn c ∧ pos.state.lastMove.kind = .place

theorem unbeaten_of_lifts (h : pos.Lifts next) (hunbeaten : ∀ c, pos.isBeaten c = false) :
    ∀ c, next.isBeaten c = false :=
  fun c => (h.isBeaten c).trans (hunbeaten c)

/-! ## Settling -/

/-- Settling a game in progress looks for beaten sides. -/
theorem Settling.overOrUnbeaten (h : pos.Settling next)
    (hphase : pos.state.phase = .placing ∨ pos.state.phase = .moving) : next.OverOrUnbeaten := by
  have hlifts := h.sameMen.lifts
  cases h with
  | idle hidle =>
      rcases hidle with h | h <;> rcases hphase with h' | h' <;> rw [h] at h' <;> cases h'
  | finished winner ending => exact Or.inl rfl
  | passed hstuck => exact Or.inr (unbeaten_of_lifts hlifts hstuck.unbeaten)
  | freed frees hstuck _ => exact Or.inr (unbeaten_of_lifts hlifts hstuck.unbeaten)
  | kept hgoes _ => exact Or.inr (unbeaten_of_lifts hlifts hgoes.unbeaten)

theorem Turned.overOrUnbeaten_settle (h : pos.Turned) : pos.settle.OverOrUnbeaten :=
  (settling_settle pos).overOrUnbeaten h.inProgress

theorem overOrUnbeaten_endPlacingOrPass (pos : Position) :
    pos.endPlacingOrPass.settle.OverOrUnbeaten := by
  rcases endPlacingOrPass_cases pos with ⟨_, hend⟩ | hpass
  · exact hend.turned.overOrUnbeaten_settle
  · rw [hpass]
    exact (turned_giveTurn pos _).overOrUnbeaten_settle

/-! ## After a placement -/

/-- A raid that takes nothing beats nobody, and no raid costs the raider a man. -/
theorem isBeaten_raidHand (pos : Position) (n : Nat) {c : Side}
    (h : c ≠ pos.state.side.other ∨ pos.state.inHand.get c = 0) :
    (pos.raidHand n).isBeaten c = pos.isBeaten c := by
  have hhand : (pos.raidHand n).state.inHand.get c = pos.state.inHand.get c := by
    show (pos.state.inHand.set pos.state.side.other (pos.state.inHand.get pos.state.side.other -
      min n (pos.state.inHand.get pos.state.side.other))).get c = _
    rcases h with hne | hzero
    · exact PerSide.get_set_of_ne _ _ hne
    · by_cases hc : c = pos.state.side.other
      · subst hc
        rw [PerSide.get_set_self, hzero, Nat.zero_sub]
      · exact PerSide.get_set_of_ne _ _ hc
  rw [isBeaten, isBeaten, hhand]
  rfl

theorem overdrawn_takeFromHand (hphase : pos.state.phase = .placing)
    (hraids : pos.rule.millAction = .takeFromHandAndPass ∨
      pos.rule.millAction = .takeFromHandAndMove)
    (hunbeaten : ∀ c, pos.isBeaten c = false) (n : Nat) :
    (pos.takeFromHand (removalsEarned pos.rule n)).OverOrUnbeaten ∨
      (pos.takeFromHand (removalsEarned pos.rule n)).Overdrawn pos.state.side.other := by
  have hplacing : (pos.raidHand (removalsEarned pos.rule n)).state.phase = .placing := hphase
  simp only [takeFromHand]
  split
  · rename_i hshort
    have hother : (pos.raidHand (removalsEarned pos.rule n)).isBeaten pos.state.side = false :=
      (isBeaten_raidHand pos _ (Or.inl (Side.other_ne _).symm)).trans (hunbeaten _)
    cases hbeaten :
        (pos.raidHand (removalsEarned pos.rule n)).isBeaten pos.state.side.other with
    | false =>
        refine Or.inl (Or.inr fun c => ?_)
        rcases Side.eq_or_eq_other c pos.state.side with rfl | rfl
        · exact hother
        · exact hbeaten
    | true =>
        refine Or.inr ⟨hraids, ?_, hphase, (Side.other_other _).symm, rfl, ?_, hbeaten, ?_⟩
        · -- one removal falls short of an empty hand only, and takes nothing from it
          by_contra hone
          have hearned : removalsEarned pos.rule n = 1 := if_neg hone
          have hzero : pos.state.inHand.get pos.state.side.other = 0 := by omega
          rw [isBeaten_raidHand pos _ (Or.inr hzero), hunbeaten] at hbeaten
          cases hbeaten
        · show (pos.state.inHand.set pos.state.side.other _).get pos.state.side.other = 0
          rw [PerSide.get_set_self]
          omega
        · rw [Side.other_other]
          exact hother
  · left
    split
    · exact (placingEnd_of_endPlacing ‹_›).2.turned.overOrUnbeaten_settle
    · split
      · exact (turned_giveTurn _ _).overOrUnbeaten_settle
      · exact (settling_settle _).overOrUnbeaten (Or.inl hplacing)

theorem overdrawn_afterDrop (hphase : pos.state.phase = .placing)
    (hunbeaten : ∀ c, pos.isBeaten c = false) (n : Nat) :
    (pos.afterDrop n).OverOrUnbeaten ∨ (pos.afterDrop n).Overdrawn pos.state.side.other := by
  simp only [afterDrop]
  split
  · exact Or.inl (overOrUnbeaten_endPlacingOrPass pos)
  · split
    · split
      · exact Or.inl (Or.inr (unbeaten_of_lifts (sameMen_resolveFullBoard pos).lifts hunbeaten))
      · exact Or.inl (overOrUnbeaten_endPlacingOrPass pos)
    · split
      · exact overdrawn_takeFromHand hphase (Or.inl ‹_›) hunbeaten n
      · exact overdrawn_takeFromHand hphase (Or.inr ‹_›) hunbeaten n
      · exact Or.inl (Or.inr (unbeaten_of_lifts (sameMen_oweRemovals pos _).lifts hunbeaten))

theorem overdrawn_placeMan (hphase : pos.state.phase = .placing)
    (hunbeaten : ∀ c, pos.isBeaten c = false)
    (hhand : pos.state.inHand.get pos.state.side ≠ 0) (p : Point) :
    (pos.placeMan p).2.OverOrUnbeaten ∨ (pos.placeMan p).2.Overdrawn pos.state.side.other := by
  obtain ⟨n, hn⟩ := placeMan_snd pos p
  have hsame := sameTurn_scoreMills (pos.drop p) p pos.state.side
  have hdropped : ∀ c, (pos.drop p).isBeaten c = false :=
    fun c => (isBeaten_drop hhand p c).trans (hunbeaten c)
  have hdrawn := overdrawn_afterDrop (hsame.phase.trans hphase)
    (unbeaten_of_lifts hsame.toSameMen.lifts hdropped) n
  rw [hn]
  rw [hsame.side] at hdrawn
  exact hdrawn

/-! ## Slides and removals -/

theorem unbeaten_slideMan (hunbeaten : ∀ c, pos.isBeaten c = false) (a b : Point) (c : Side) :
    (pos.slideMan a b).2.isBeaten c = false := by
  obtain ⟨opened, n, hn⟩ := slideMan_snd pos a b
  have hsame := sameTurn_scoreMills (pos.shift a b) b pos.state.side
  have hshifted : ∀ d, (pos.shift a b).isBeaten d = false := hunbeaten
  rw [hn]
  exact unbeaten_of_lifts (afterShift_cases _ a b opened n).sameMen.lifts
    (unbeaten_of_lifts hsame.toSameMen.lifts hshifted) c

theorem overOrUnbeaten_takeMan {target : Side} (h : pos.Consistent)
    (hp : pos.contentAt p = target.man) (hunbeaten : ∀ c, pos.isBeaten c = false) :
    ((pos.takeMan p target).afterTaking target).OverOrUnbeaten := by
  cases htarget : (pos.takeMan p target).isBeaten target with
  | true =>
      left
      rw [afterTaking, if_pos htarget]
      rfl
  | false =>
      right
      have hlifts := (afterTaking_cases (pos.takeMan p target) target).lifts (h.takeMan hp).agrees
      exact unbeaten_of_lifts hlifts.1 (unbeaten_takeMan h hp hunbeaten htarget)

/-- A side with too few men that loses one more has lost. -/
theorem afterTaking_of_isBeaten {c : Side} (hbeaten : pos.isBeaten c = true) :
    ((pos.takeMan p c).afterTaking c) = (pos.takeMan p c).finish c.other.colour .fewMen := by
  have hframe := takeMan_frame pos p c
  have htaken : (pos.takeMan p c).isBeaten c = true := by
    rw [isBeaten, decide_eq_true_iff] at hbeaten ⊢
    rw [hframe.onBoard, hframe.inHand, hframe.rule, PerSide.get_update, if_pos rfl]
    omega
  rw [afterTaking, if_pos htaken]

/-! ## Accepted moves -/

/-- No man is put down, picked up or slid while a removal is expected. -/
theorem not_put_of_remove (haction : pos.state.action = .remove)
    (hphase : pos.state.phase = .placing ∨ pos.state.phase = .moving) {r : Nat × Position} :
    pos.put p ≠ .ok r := by
  intro hput
  have hact := (put_ok_iff.1 hput).2
  simp only [putOn, haction] at hact
  rcases hphase with h | h <;> rw [h] at hact <;> cases hact

theorem Putting.overdrawn (h : pos.Putting p next) (hunbeaten : ∀ c, pos.isBeaten c = false) :
    next.OverOrUnbeaten ∨ ∃ c, next.Overdrawn c := by
  cases h with
  | placed hphase _ _ hhand =>
      have hbegun : ∀ c, (pos.mapState fun s => { s with phase := .placing }).isBeaten c = false :=
        hunbeaten
      rw [start_of_placing (hphase.imp_right And.left)]
      exact (overdrawn_placeMan rfl hbegun hhand p).imp_right fun hdrawn => ⟨_, hdrawn⟩
  | picked _ _ _ _ => exact Or.inl (Or.inr hunbeaten)
  | slid _ _ _ _ _ => exact Or.inl (Or.inr (unbeaten_slideMan hunbeaten _ p))

namespace Sound

theorem overOrUnbeaten_slide (h : pos.Sound) (hunbeaten : ∀ c, pos.isBeaten c = false)
    {a b : Point} {r : Nat × Position} (hslide : pos.slide a b = .ok r) : r.2.OverOrUnbeaten := by
  obtain ⟨picked, hselect, hput⟩ := bind_eq_ok_iff.1 hslide
  have hputting := (h.select hselect).put_cases hput
  have hidle := not_placed_of_select hselect
  obtain ⟨_, _, _, _, rfl⟩ := select_ok_iff.1 hselect
  generalize r.2 = next at hputting
  cases hputting with
  | placed hplace _ _ _ => exact absurd hplace hidle
  | picked _ _ _ _ => exact Or.inr hunbeaten
  | slid _ _ _ _ _ =>
      have hpicked : ∀ c, (pos.pick a).isBeaten c = false := hunbeaten
      exact Or.inr (unbeaten_slideMan hpicked _ b)

/-- While no side is beaten, an accepted move beats one only by ending the game or by a placement
that overdraws its hand. -/
theorem supplied_of_unbeaten (h : pos.Sound) (hunbeaten : ∀ c, pos.isBeaten c = false) {m : Move}
    (hnext : pos.apply m = .ok next) : next.Supplied := by
  obtain ⟨played, hplayed, rfl⟩ := apply_ok_iff.1 hnext
  cases hplayed with
  | placed hkind hput =>
      have hreleased := h.of_sameTurn (sameTurn_release pos)
      have hputting := hreleased.put_cases hput
      rcases hputting.overdrawn hunbeaten with hover | ⟨c, hdrawn⟩
      · exact Or.inl hover
      · exact Or.inr ⟨c, ⟨hdrawn.raids, hdrawn.several, hdrawn.phase, hdrawn.side, hdrawn.action,
          hdrawn.hand, hdrawn.beaten, hdrawn.spared⟩, hkind⟩
  | slid _ hslide => exact Or.inl (h.overOrUnbeaten_slide hunbeaten hslide)
  | removed _ hremove =>
      obtain ⟨hremovable, rfl⟩ := remove_ok_iff.1 hremove
      exact Or.inl (overOrUnbeaten_takeMan h.toConsistent hremovable.man hunbeaten)

end Sound

/-- The move after an overdrawn hand takes another man of that side, and ends the game. -/
theorem Overdrawn.lost_apply {c : Side} (h : pos.Overdrawn c)
    (htakes : pos.state.takesOwn.get c.other = false) {m : Move}
    (hnext : pos.apply m = .ok next) : next.state.phase = .finished ∧
      next.state.winner = c.other.colour ∧ next.state.ending = .fewMen := by
  obtain ⟨played, hplayed, rfl⟩ := apply_ok_iff.1 hnext
  cases hplayed with
  | placed _ hput =>
      have haction : pos.release.state.action = .remove := h.action
      exact absurd hput (not_put_of_remove haction (Or.inl h.phase))
  | slid _ hslide =>
      obtain ⟨picked, hselect, _⟩ := bind_eq_ok_iff.1 hslide
      exact absurd h.action (select_ok_iff.1 hselect).2.1
  | removed _ hremove =>
      have htarget : pos.removalTarget = c := by
        rw [removalTarget, h.side, htakes, Side.other_other]
        rfl
      obtain ⟨_, rfl⟩ := remove_ok_iff.1 hremove
      rw [htarget, afterTaking_of_isBeaten h.beaten]
      exact ⟨rfl, rfl, rfl⟩

/-- A side takes its own men under none of the rules that raid a hand. -/
theorem Overdrawn.takesOwn {c : Side} (h : pos.Overdrawn c) (hledger : pos.Ledger) :
    pos.state.takesOwn.get c.other = false := by
  apply eq_false_of_ne_true
  intro htakes
  have hlater := (hledger.takesOwn _ htakes).2
  rcases h.raids with hraids | hraids <;> cases hraids.symm.trans hlater

/-! ## Games of accepted moves -/

variable {admits : Move → Prop} {rule : Rule}

theorem PlayedBy.lost_apply (h : PlayedBy admits rule pos) {c : Side} (hdrawn : pos.Overdrawn c)
    {m : Move} (hnext : pos.apply m = .ok next) : next.state.phase = .finished ∧
      next.state.winner = c.other.colour ∧ next.state.ending = .fewMen := by
  have hgoes : pos.state.phase ≠ .finished := by
    rw [hdrawn.phase]
    decide
  exact hdrawn.lost_apply (hdrawn.takesOwn (h.reachable.balanced.ledger hgoes)) hnext

theorem supplied_ofRule (h : ofRule rule = .ok pos) : pos.Supplied := by
  obtain ⟨v, hv, rfl⟩ := map_eq_ok_iff.1 h
  have hvalid := (Variant.made_of_ofRule hv).1.valid
  have hleast := ((Rule.valid_iff v.rule).1 hvalid).2.2.1.2
  refine Or.inl (Or.inr fun c => ?_)
  rw [isBeaten, decide_eq_false_iff_not]
  have hmen : (ofVariant v).state.onBoard.get c + (ofVariant v).state.inHand.get c =
      v.rule.pieceCount := by
    cases c <;> exact Nat.zero_add _
  rw [hmen]
  exact Nat.not_lt.2 hleast

theorem PlayedBy.supplied (h : PlayedBy admits rule pos) : pos.Supplied := by
  induction h with
  | begin hbegin => exact supplied_ofRule hbegin
  | @move pos next m hplayed _ hnext ih =>
      rcases ih with (hover | hunbeaten) | ⟨c, hdrawn, _⟩
      · obtain ⟨refusal, hrefused⟩ := apply_of_finished hover m
        rw [hrefused] at hnext
        cases hnext
      · exact hplayed.sound.supplied_of_unbeaten hunbeaten hnext
      · exact Or.inl (Or.inl (hplayed.lost_apply hdrawn hnext).1)

/-- In a game of accepted moves that goes on, a side has fewer men than the rule asks for only if
the placement just made has closed several mills and emptied its hand, under a rule by which mills
take men from the hand and several mills take several. A removal is owed then, the other side has
men enough, and every accepted move ends the game in its favour. -/
theorem played_short (h : PlayedBy admits rule pos)
    (hphase : pos.state.phase = .placing ∨ pos.state.phase = .moving) {c : Side}
    (hfew : pos.state.onBoard.get c + pos.state.inHand.get c < rule.leastCount) :
    (pos.Overdrawn c ∧ pos.state.lastMove.kind = .place) ∧
      ∀ (m : Move) (next : Position), pos.apply m = .ok next →
        next.state.phase = .finished ∧ next.state.winner = c.other.colour ∧
          next.state.ending = .fewMen := by
  have hbeaten : pos.isBeaten c = true := by
    rw [isBeaten, decide_eq_true_iff, h.rule_eq]
    exact hfew
  rcases h.supplied with (hover | hunbeaten) | ⟨d, hdrawn, hplaced⟩
  · rcases hphase with hphase | hphase <;> rw [hover] at hphase <;> cases hphase
  · rw [hunbeaten] at hbeaten
    cases hbeaten
  · have hd : d = c := by
      rcases Side.eq_or_eq_other c d with rfl | rfl
      · rfl
      · rw [hdrawn.spared] at hbeaten
        cases hbeaten
    subst hd
    exact ⟨⟨hdrawn, hplaced⟩, fun m next hnext => h.lost_apply hdrawn hnext⟩

/-- Five men a side, who are all needed; mills take men from the hand, and two mills take two. -/
def starving : Rule where
  pieceCount := 5
  leastCount := 5
  millAction := .takeFromHandAndPass
  mayRemoveMultiple := true

/-- White fills two lines with its last man, and Black has one man in hand. -/
def doubleMill : List Move :=
  [.place 15, .place 24, .place 8, .place 26, .place 10, .place 28, .place 11, .place 30, .place 9]

theorem doubleMill_spec : ∃ pos, PlayedBy Move.OnBoard starving pos ∧ pos.state.phase = .placing ∧
    pos.state.onBoard.get .black + pos.state.inHand.get .black < starving.leastCount ∧
    (pos.apply (.remove 24)).toOption.isSome = true := by
  have hspec : ((ofVariant (.ofRule starving)).applyAll? doubleMill).any (fun pos =>
      decide (pos.state.phase = .placing ∧
        pos.state.onBoard.get .black + pos.state.inHand.get .black < starving.leastCount ∧
        (pos.apply (.remove 24)).toOption.isSome = true)) = true := by
    decide +kernel
  obtain ⟨pos, hpos, hfacts⟩ := (Option.any_eq_true _ _).1 hspec
  have hmoves : ∀ m ∈ doubleMill, m.OnBoard := by decide +kernel
  exact ⟨pos, (PlayedBy.begin rfl).applyAll hmoves hpos, of_decide_eq_true hfacts⟩

/-- Black has four men left of the five it needs, and loses with the removal that White still owes.
-/
theorem played_short_doubleMill : ∃ pos next, PlayedBy Move.OnBoard starving pos ∧
    pos.state.phase = .placing ∧
    pos.state.onBoard.get .black + pos.state.inHand.get .black < starving.leastCount ∧
    pos.Overdrawn .black ∧ pos.apply (.remove 24) = .ok next ∧ next.state.phase = .finished ∧
    next.state.winner = .white := by
  obtain ⟨pos, hplayed, hphase, hfew, hremoved⟩ := doubleMill_spec
  obtain ⟨next, hnext⟩ := Option.isSome_iff_exists.1 hremoved
  rw [toOption_eq_some_iff] at hnext
  obtain ⟨⟨hdrawn, _⟩, hlost⟩ := played_short hplayed (Or.inl hphase) hfew
  obtain ⟨hover, hwinner, _⟩ := hlost _ next hnext
  exact ⟨pos, next, hplayed, hphase, hfew, hdrawn, hnext, hover, hwinner⟩

/-- A side may have too few men in a game that goes on. -/
theorem not_forall_played_sufficient :
    ¬ ∀ (rule : Rule) (pos : Position), PlayedBy Move.OnBoard rule pos →
      pos.state.phase = .placing ∨ pos.state.phase = .moving →
      ∀ c, rule.leastCount ≤ pos.state.onBoard.get c + pos.state.inHand.get c := by
  intro hall
  obtain ⟨pos, hplayed, hphase, hfew, _⟩ := doubleMill_spec
  exact absurd (hall starving pos hplayed (Or.inl hphase) .black) (Nat.not_le.2 hfew)

end Morris.Position
