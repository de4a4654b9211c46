import Morris.Proofs.Quiet

/-!
# How long a game can be

`Position.movesLeft` bounds the moves that can still follow. It weighs the men: one in the hand can
be placed and taken off, one on the board can only be taken off. Between two moves that lower the
weight there are at most as many slides as the rule allows quiet moves, so every unit of weight
stands for that many slides and one move more. Nothing but a placement or a removal sets the count
of quiet moves to zero, and both lower the weight.

Under a rule that allows no sliding while men are being placed each accepted move lowers the bound
(`Position.Sound.movesLeft_apply`), so a game is no longer than the bound of its first position
(`Position.length_of_applyAll`). Under the other rules there is no bound at all, since a man can be
picked up in a move that changes nothing else (`Position.applyAll_replicate_own`).
-/

set_option autoImplicit false

namespace Morris.Position

variable {pos next : Position} {p : Point}

/-- The men by the moves that can still be made with them: a man in hand counts twice, a man on the
board once. -/
def weight (pos : Position) : Nat :=
  2 * (pos.state.inHand.white + pos.state.inHand.black) +
    (pos.state.onBoard.white + pos.state.onBoard.black)

/-- A bound on the moves that can follow: the slides until the limit on quiet moves, and for each
unit of weight a move and the slides that can follow it. -/
def movesLeft (pos : Position) : Nat :=
  pos.weight * (pos.rule.moveLimit + 1) + (pos.rule.moveLimit - pos.state.quiet)

/-! ## What lowers the bound -/

theorem weight_eq (pos : Position) (c : Side) :
    pos.weight = 2 * (pos.state.inHand.get c + pos.state.inHand.get c.other) +
      (pos.state.onBoard.get c + pos.state.onBoard.get c.other) := by
  cases c with
  | white => rfl
  | black =>
      show 2 * (pos.state.inHand.white + pos.state.inHand.black) +
          (pos.state.onBoard.white + pos.state.onBoard.black) =
        2 * (pos.state.inHand.black + pos.state.inHand.white) +
          (pos.state.onBoard.black + pos.state.onBoard.white)
      omega

/-- A unit of weight is worth more than all the quiet moves of the limit. -/
theorem movesLeft_of_weight (hrule : next.rule = pos.rule) (h : next.weight < pos.weight) :
    next.movesLeft < pos.movesLeft := by
  have hpaid : (next.weight + 1) * (pos.rule.moveLimit + 1) ≤
      pos.weight * (pos.rule.moveLimit + 1) := Nat.mul_le_mul_right _ h
  rw [Nat.succ_mul] at hpaid
  rw [movesLeft, movesLeft, hrule]
  omega

/-- A quiet move that the limit allows. -/
theorem movesLeft_of_quiet (hrule : next.rule = pos.rule) (h : next.weight = pos.weight)
    (hquiet : next.state.quiet = pos.state.quiet + 1)
    (hlimit : pos.state.quiet < pos.rule.moveLimit) : next.movesLeft < pos.movesLeft := by
  rw [movesLeft, movesLeft, hrule, h, hquiet]
  omega

/-! ## The men after each move -/

/-- No hand is filled by a placement. -/
theorem inHand_placeMan (h : pos.Consistent) (hp : Point.onBoard p = true)
    (hfree : pos.contentAt p = .empty) (hhand : pos.state.inHand.get pos.state.side ≠ 0)
    (c : Side) :
    (pos.placeMan p).2.state.inHand.get c ≤ pos.state.inHand.get c := by
  obtain ⟨n, hn⟩ := placeMan_snd pos p
  have hclosed := (h.drop hp hfree hhand).scoreMills p pos.state.side
  have hafter := (afterDrop_cases ((pos.drop p).scoreMills p pos.state.side).2 n).aftermath
    hclosed.agrees
  have hdrop : (pos.drop p).state.inHand.get c ≤ pos.state.inHand.get c := by
    show (pos.state.inHand.update pos.state.side (· - 1)).get c ≤ _
    rw [PerSide.get_update]
    split <;> omega
  rw [hn]
  refine Nat.le_trans (hafter.hands c) ?_
  rw [(sameTurn_scoreMills (pos.drop p) p pos.state.side).layout]
  exact hdrop

theorem weight_placeMan (h : pos.Consistent) (hp : Point.onBoard p = true)
    (hfree : pos.contentAt p = .empty) (hhand : pos.state.inHand.get pos.state.side ≠ 0) :
    (pos.placeMan p).2.weight < pos.weight := by
  have hplaced := placed_placeMan h hp hfree hhand
  have hown := hplaced.hand
  have hother := inHand_placeMan h hp hfree hhand pos.state.side.other
  rw [weight_eq _ pos.state.side, weight_eq pos pos.state.side, hplaced.onBoard,
    PerSide.get_update, PerSide.get_update, if_pos rfl, if_neg (Side.other_ne pos.state.side)]
  omega

theorem Slid.weight_eq {a b : Point} (h : pos.Slid next a b) :
    next.weight = pos.weight := by
  rw [weight, weight, h.onBoard, h.inHand]

theorem Removed.weight_lt {target : Side} (h : pos.Removed next p target) :
    next.weight < pos.weight := by
  have hcount := h.count
  rw [Position.weight_eq next target, Position.weight_eq pos target, h.inHand, h.other]
  omega

/-! ## Accepted moves -/

namespace Sound

/-- A placement or slide lowers the bound if no man can be picked up while men are being placed. -/
theorem movesLeft_putting (h : pos.Sound) (hmay : pos.rule.mayMoveWhilePlacing = false)
    (hput : pos.Putting p next) : next.movesLeft < pos.movesLeft := by
  cases hput with
  | placed hphase hp hfree hhand =>
      have hbegun := h.start
      have hstart := start_of_placing (hphase.imp_right And.left)
      rw [hstart] at hbegun ⊢
      exact movesLeft_of_weight (uncounted_placeMan _ p).rule
        (weight_placeMan hbegun.toConsistent hp hfree hhand)
  | picked _ hallowed _ _ =>
      rw [hmay] at hallowed
      cases hallowed
  | slid hphase haction hp _ hslide =>
      exact movesLeft_of_quiet (uncounted_slideMan pos _ p).rule
        (slid_slideMan h.toConsistent hslide hp).weight_eq (quiet_slideMan pos _ p)
        (h.stage.quiet_lt hphase (by rw [haction]; decide))

theorem movesLeft_remove (h : pos.Sound) (hremove : pos.remove p = .ok next) :
    next.movesLeft < pos.movesLeft := by
  have hrule := (uncounted_remove hremove).rule
  obtain ⟨hremovable, rfl⟩ := remove_ok_iff.1 hremove
  exact movesLeft_of_weight hrule (removed_takeMan h.toConsistent hremovable.man).weight_lt

/-- Every accepted move lowers the bound on those that can follow. -/
theorem movesLeft_apply (h : pos.Sound) (hmay : pos.rule.mayMoveWhilePlacing = false) {m : Move}
    (hnext : pos.apply m = .ok next) : next.movesLeft < pos.movesLeft := by
  obtain ⟨played, hplayed, rfl⟩ := apply_ok_iff.1 hnext
  show played.movesLeft < pos.movesLeft
  cases hplayed with
  | placed _ hput =>
      have hreleased := h.of_sameTurn (sameTurn_release pos)
      exact hreleased.movesLeft_putting hmay (hreleased.put_cases hput)
  | slid _ hslide =>
      obtain ⟨picked, hselect, hput⟩ := bind_eq_ok_iff.1 hslide
      have hpicked := h.select hselect
      obtain ⟨_, _, _, _, rfl⟩ := select_ok_iff.1 hselect
      exact hpicked.movesLeft_putting hmay (hpicked.put_cases hput)
  | removed _ hremove => exact h.movesLeft_remove hremove

/-- Accepted moves are no more than the bound of the position they start from. -/
theorem length_le_movesLeft (h : pos.Sound) (hmay : pos.rule.mayMoveWhilePlacing = false)
    {ms : List Move} (hnext : pos.applyAll? ms = some next) : ms.length ≤ pos.movesLeft := by
  induction ms generalizing pos with
  | nil => exact Nat.zero_le _
  | cons m ms ih =>
      obtain ⟨mid, hmid, hrest⟩ := Option.bind_eq_some_iff.1 hnext
      rw [toOption_eq_some_iff] at hmid
      have hstep := h.movesLeft_apply hmay hmid
      have hrule : mid.rule = pos.rule := congrArg Variant.rule (variant_apply hmid)
      have hlength := ih (h.apply hmid) (by rw [hrule]; exact hmay) hrest
      rw [List.length_cons]
      omega

end Sound

/-- The bound of the first position: four units of weight for every two men, one of each side. -/
theorem movesLeft_ofRule {rule : Rule} (h : ofRule rule = .ok pos) :
    pos.movesLeft = 4 * rule.pieceCount + (4 * rule.pieceCount + 1) * rule.moveLimit := by
  obtain ⟨v, hv, rfl⟩ := map_eq_ok_iff.1 h
  obtain ⟨_, rfl⟩ := Variant.made_of_ofRule hv
  have hweight : (ofVariant v).weight = 4 * v.rule.pieceCount := by
    show 2 * (v.rule.pieceCount + v.rule.pieceCount) + (0 + 0) = 4 * v.rule.pieceCount
    omega
  have hquiet : (ofVariant v).state.quiet = 0 := rfl
  have hrule : (ofVariant v).rule = v.rule := rfl
  rw [movesLeft, hweight, hquiet, hrule, Nat.mul_succ (4 * v.rule.pieceCount),
    Nat.succ_mul (4 * v.rule.pieceCount)]
  omega

/-- Under a rule that allows no sliding while men are being placed, no game goes on for longer than
four moves for every man of a side and, before each of them and after the last, as many slides as
the limit on quiet moves allows. -/
theorem length_of_applyAll {rule : Rule} (hmay : rule.mayMoveWhilePlacing = false)
    (hbegin : ofRule rule = .ok pos) {ms : List Move} (hnext : pos.applyAll? ms = some next) :
    ms.length ≤ 4 * rule.pieceCount + (4 * rule.pieceCount + 1) * rule.moveLimit := by
  have hplayed : PlayedBy (fun _ => True) rule pos := .begin hbegin
  rw [← movesLeft_ofRule hbegin]
  exact (sound_ofRule hbegin).length_le_movesLeft
    (by rw [hplayed.rule_eq]; exact hmay) hnext

/-- Three men a side, and a draw after the first slide that closes no mill. -/
def brief : Rule := { pieceCount := 3, moveLimit := 1, endgameMoveLimit := 1 }

/-- A game of seven moves, where twenty-five would be allowed. -/
theorem length_of_applyAll_brief :
    ∃ next, (ofVariant (.ofRule brief)).applyAll? [.place 8, .place 24, .place 9, .place 26,
        .place 11, .place 29, .slide 8 15] = some next ∧ next.state.phase = .finished ∧
      7 ≤ 4 * brief.pieceCount + (4 * brief.pieceCount + 1) * brief.moveLimit := by
  have hplayed : ((ofVariant (.ofRule brief)).applyAll? [.place 8, .place 24, .place 9, .place 26,
      .place 11, .place 29, .slide 8 15]).any (·.state.phase == .finished) = true := by
    decide +kernel
  obtain ⟨next, hnext, hphase⟩ := (Option.any_eq_true _ _).1 hplayed
  exact ⟨next, hnext, beq_iff_eq.1 hphase, length_of_applyAll rfl rfl hnext⟩

/-! ## Games without end -/

/-- While men are being placed, an own man is picked up by a move and nothing else happens. -/
theorem apply_place_own (hplacing : pos.state.phase = .placing)
    (haction : pos.state.action = .place) (hmay : pos.rule.mayMoveWhilePlacing = true)
    (hp : Point.onBoard p = true) (hman : pos.contentAt p = pos.state.side.man) :
    pos.apply (.place p) = .ok ((pos.mapState fun s => { s with selected := some p }).log
      (.place p)) := by
  have hfit : pos.release.pointFault? p = none := by
    refine pointFault_eq_none_iff.2 ⟨?_, hp, Or.inr ⟨hmay, hman⟩⟩
    show pos.state.phase ≠ .finished
    rw [hplacing]
    nofun
  -- the branches of `putOn` are chosen by the phase, the action and the rule
  have hput : pos.release.putOn p =
      .ok (0, pos.mapState fun s => { s with selected := some p }) := by
    have hown : (pos.release.contentAt p != .empty) = true := by
      rw [bne_iff_ne]
      show pos.contentAt p ≠ .empty
      rw [hman]
      exact Side.man_ne_empty _
    simp only [putOn]
    rw [show pos.release.state.phase = .placing from hplacing,
      show pos.release.state.action = .place from haction,
      show pos.release.rule.mayMoveWhilePlacing = true from hmay, hown]
    rfl
  rw [apply_place_iff hp]
  exact ⟨_, put_ok_iff.2 ⟨hfit, hput⟩, rfl⟩

/-- If men may be slid while others are being placed, no number bounds the moves that can follow:
the side to move can pick up the same man again and again. -/
theorem applyAll_replicate_own (hplacing : pos.state.phase = .placing)
    (haction : pos.state.action = .place) (hmay : pos.rule.mayMoveWhilePlacing = true)
    (hp : Point.onBoard p = true) (hman : pos.contentAt p = pos.state.side.man) (n : Nat) :
    ∃ next, pos.applyAll? (List.replicate n (.place p)) = some next := by
  induction n generalizing pos with
  | zero => exact ⟨pos, rfl⟩
  | succ n ih =>
      have hnext := apply_place_own hplacing haction hmay hp hman
      have hheld : ∀ next, pos.Held next p (.place p) →
          ∃ last, next.applyAll? (List.replicate n (.place p)) = some last := by
        rintro next rfl
        exact ih hplacing haction hmay hman
      obtain ⟨last, hlast⟩ := hheld _ rfl
      refine ⟨last, ?_⟩
      rw [List.replicate_succ, applyAll?, hnext]
      exact hlast

end Morris.Position
