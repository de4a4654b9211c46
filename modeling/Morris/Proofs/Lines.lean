import Morris.Proofs.Effect
import Morris.Proofs.Step
import Morris.Proofs.Symmetry.Play

/-!
# Lines that score once

Under a rule by which a line scores once, the lines that a side has scored with are remembered as
the set of their points. A line that a side fills anew counts unless that set covers it, and the
lines counted in one move are added to it one after another. So what a move scores is not the number
of lines that the side has filled for the first time, but of those among them that bring in a point
of their own (`Position.newLines`). `Position.Filling` follows a game together with the lines that
each side has had filled, and `Position.filling_score` says how the score and the number of lines
filled for the first time are related: it is never more, and it is the same if and only if none of
these lines is made up of points of lines filled before or listed before.
`Position.not_forall_filling_score` is a game in which one of two new lines is passed over.
-/

set_option autoImplicit false

namespace Morris

/-! ## Lines that lie on others -/

namespace Bitboard

/-- Every point of a line belongs to one of some other lines. -/
def liesOn (line : Bitboard) (others : List Bitboard) : Bool :=
  line.points.all fun q => others.any fun other => other.contains q

/-- A line lies on others if each of its points is on one of them. -/
theorem liesOn_iff {line : Bitboard} {others : List Bitboard} :
    line.liesOn others = true ↔
      ∀ q, line.contains q = true → ∃ other ∈ others, other.contains q = true := by
  simp only [liesOn, List.all_eq_true, mem_points, List.any_eq_true]

theorem liesOn_of_mem {line : Bitboard} {others : List Bitboard} (h : line ∈ others) :
    line.liesOn others = true :=
  liesOn_iff.2 fun _ hq => ⟨line, h, hq⟩

theorem liesOn_congr {line : Bitboard} {others others' : List Bitboard}
    (h : ∀ other, other ∈ others ↔ other ∈ others') : line.liesOn others = line.liesOn others' := by
  rw [Bool.eq_iff_iff, liesOn_iff, liesOn_iff]
  simp only [h]

/-- A set covers a line that has a point if and only if the line lies on lines that make up the
set. -/
theorem covers_eq_liesOn {used line : Bitboard} {before : List Bitboard}
    (hused : ∀ q, used.contains q = true ↔ ∃ other ∈ before, other.contains q = true)
    (hline : line.isEmpty = false) : used.covers line = line.liesOn before := by
  rw [Bool.eq_iff_iff, covers_iff, liesOn_iff]
  simp only [hline, true_and, hused]

end Bitboard

/-- The pairs of partners of a point make up the lines through it, in the order of the table. -/
theorem Board.partners_map_insert {diagonals : Bool} {p : Point} (hp : Point.onBoard p = true) :
    (partners diagonals p).map (fun pair => pair.insert p) =
      (lines diagonals).filter fun line => line.contains p := by
  have hall : ∀ diagonals : Bool, ∀ p ∈ Point.all,
      (partners diagonals p).map (fun pair => pair.insert p) =
        (lines diagonals).filter fun line => line.contains p := by
    decide +kernel
  exact hall diagonals p ((Point.mem_all p).2 hp)

theorem Bitboard.contains_insert_self {p : Point} (hp : Point.onBoard p = true) (b : Bitboard) :
    (b.insert p).contains p = true := by
  rw [contains_insert (Point.lt_of_onBoard hp), decide_eq_true rfl, Bool.or_true]

theorem Bitboard.isEmpty_of_contains {b : Bitboard} {q : Point} (h : b.contains q = true) :
    b.isEmpty = false := by
  apply eq_false_of_ne_true
  intro hempty
  rw [isEmpty_iff.1 hempty q] at h
  cases h

namespace Position

variable {pos next : Position} {c : Side} {p : Point} {r : Nat × Position}

/-- The lines of a list that have a point of their own, beside some lines and those listed earlier.
-/
def newLines : List Bitboard → List Bitboard → List Bitboard
  | _, [] => []
  | before, line :: rest =>
      if line.liesOn before then newLines (line :: before) rest
      else line :: newLines (line :: before) rest

/-- Lines that have a point of their own are new. -/
theorem length_newLines_le {before seen : List Bitboard} (hseen : ∀ line ∈ before, line ∈ seen)
    (owned : List Bitboard) :
    (newLines seen owned).length ≤ (owned.filter fun line => line ∉ before).length := by
  induction owned generalizing seen with
  | nil => exact Nat.le_refl 0
  | cons line rest ih =>
      have hrest := ih fun other hother => List.mem_cons_of_mem line (hseen other hother)
      rw [newLines, List.filter_cons]
      split
      · split
        · exact Nat.le_succ_of_le hrest
        · exact hrest
      · rename_i hown
        have hnew : line ∉ before := fun hin => hown (Bitboard.liesOn_of_mem (hseen line hin))
        rw [if_pos (decide_eq_true hnew)]
        exact Nat.succ_le_succ hrest

/-- No line of a list that is not among `before` lies on some lines and those listed earlier. -/
def AllApart (before seen owned : List Bitboard) : Prop :=
  ∀ earlier line later, owned = earlier ++ line :: later → line ∉ before →
    line.liesOn (seen ++ earlier) = false

/-- The lines of a list are apart one by one. -/
theorem allApart_cons {before seen rest : List Bitboard} {line : Bitboard} :
    AllApart before seen (line :: rest) ↔
      (line ∉ before → line.liesOn seen = false) ∧ AllApart before (line :: seen) rest := by
  -- the line that has been gone through counts as seen or as earlier
  have hsame : ∀ (earlier : List Bitboard) (other : Bitboard),
      other.liesOn (line :: seen ++ earlier) = other.liesOn (seen ++ line :: earlier) := by
    intro earlier other
    apply Bitboard.liesOn_congr
    intro x
    simp only [List.cons_append, List.mem_cons, List.mem_append]
    tauto
  constructor
  · intro h
    refine ⟨fun hnew => ?_, fun earlier other later heq hnew => ?_⟩
    · have hfirst := h [] line rest rfl hnew
      rwa [List.append_nil] at hfirst
    · rw [hsame]
      exact h (line :: earlier) other later (congrArg (line :: ·) heq) hnew
  · rintro ⟨hfirst, hrest⟩ earlier other later heq hnew
    cases earlier with
    | nil =>
        cases heq
        rw [List.append_nil]
        exact hfirst hnew
    | cons first earlier =>
        cases heq
        rw [← hsame]
        exact hrest earlier other later rfl hnew

/-- All new lines have a point of their own if and only if none of them lies on the lines before it.
-/
theorem length_newLines_eq_iff {before seen : List Bitboard}
    (hseen : ∀ line ∈ before, line ∈ seen) (owned : List Bitboard) :
    (newLines seen owned).length = (owned.filter fun line => line ∉ before).length ↔
      AllApart before seen owned := by
  induction owned generalizing seen with
  | nil =>
      refine ⟨fun _ earlier line later heq => ?_, fun _ => rfl⟩
      cases earlier <;> cases heq
  | cons line rest ih =>
      have hseen' : ∀ other ∈ before, other ∈ line :: seen := fun other hother =>
        List.mem_cons_of_mem line (hseen other hother)
      have hle := length_newLines_le hseen' rest
      rw [newLines, List.filter_cons, allApart_cons, ← ih hseen']
      cases hlies : line.liesOn seen with
      | true =>
          rw [if_pos rfl]
          by_cases hnew : line ∈ before
          · simp [hnew]
          · -- the line is new and is not counted
            rw [if_pos (decide_eq_true hnew), List.length_cons]
            constructor
            · intro heq
              omega
            · rintro ⟨hfirst, _⟩
              cases hfirst hnew
      | false =>
          have hnew : line ∉ before := by
            intro hin
            rw [Bitboard.liesOn_of_mem (hseen line hin)] at hlies
            cases hlies
          rw [if_neg Bool.false_ne_true, if_pos (decide_eq_true hnew), List.length_cons,
            List.length_cons, Nat.succ_inj]
          exact ⟨fun heq => ⟨fun _ => rfl, heq⟩, And.right⟩

/-! ## The lines that a move fills -/

/-- The lines through a point that a side has filled, in the order of the table. -/
def filledLines (pos : Position) (c : Side) (p : Point) : List Bitboard :=
  (Board.lines pos.rule.hasDiagonals).filter fun line =>
    (pos.men c).covers line && line.contains p

/-- The filled lines through a point are the lines of the board through it that men of the side
cover. -/
theorem mem_filledLines {line : Bitboard} : line ∈ pos.filledLines c p ↔
    line ∈ Board.lines pos.rule.hasDiagonals ∧ (pos.men c).covers line = true ∧
      line.contains p = true := by
  rw [filledLines, List.mem_filter, Bool.and_eq_true]

/-- A side that stands on a point fills the lines of which it covers the two other points. -/
theorem map_insert_partners (hp : Point.onBoard p = true) (hman : (pos.men c).contains p = true) :
    ((Board.partners pos.rule.hasDiagonals p).filter fun pair => (pos.men c).covers pair).map
      (fun pair => pair.insert p) = pos.filledLines c p := by
  -- the man on the point itself is there anyway
  have hcovers : ∀ pair ∈ Board.partners pos.rule.hasDiagonals p,
      (pos.men c).covers pair = (pos.men c).covers (pair.insert p) := by
    intro pair hpair
    obtain ⟨_, _, q, hq, _⟩ := Board.partners_spec hp hpair
    rw [Bool.eq_iff_iff, Bitboard.covers_iff, Bitboard.covers_iff]
    constructor
    · rintro ⟨_, hwithin⟩
      refine ⟨Bitboard.isEmpty_of_contains (Bitboard.contains_insert_self hp pair), fun x hx => ?_⟩
      rw [Bitboard.contains_insert (Point.lt_of_onBoard hp), Bool.or_eq_true,
        decide_eq_true_iff] at hx
      rcases hx with hx | rfl
      · exact hwithin x hx
      · exact hman
    · rintro ⟨_, hwithin⟩
      refine ⟨Bitboard.isEmpty_of_contains hq, fun x hx => hwithin x ?_⟩
      rw [Bitboard.contains_insert (Point.lt_of_onBoard hp), hx, Bool.true_or]
  rw [filledLines, ← List.filter_filter, ← Board.partners_map_insert hp, List.filter_map]
  refine congrArg (List.map _) (List.filter_congr fun pair hpair => ?_)
  rw [hcovers pair hpair]
  rfl

/-- The lines counted one after another are those that have a point of their own. -/
theorem scoreLines_fst (hp : Point.onBoard p = true) (pairs : List Bitboard) {used : Bitboard}
    {before : List Bitboard}
    (hused : ∀ q, used.contains q = true ↔ ∃ line ∈ before, line.contains q = true) :
    (scoreLines p pairs used).1 =
      (newLines before (pairs.map fun pair => pair.insert p)).length := by
  -- the points used grow with every line, and so does the list of the lines before
  induction pairs generalizing used before with
  | nil => rfl
  | cons pair pairs ih =>
      have hline := Bitboard.isEmpty_of_contains (Bitboard.contains_insert_self hp pair)
      have hcovers := Bitboard.covers_eq_liesOn hused hline
      rw [List.map_cons, newLines, scoreLines]
      simp only [hcovers]
      cases hlies : (pair.insert p).liesOn before with
      | true =>
          rw [if_pos rfl, if_pos rfl]
          refine ih fun q => ?_
          rw [hused]
          constructor
          · rintro ⟨line, hin, hq⟩
            exact ⟨line, List.mem_cons_of_mem _ hin, hq⟩
          · rintro ⟨line, hin, hq⟩
            rcases List.mem_cons.1 hin with rfl | hin
            · exact Bitboard.liesOn_iff.1 hlies q hq
            · exact ⟨line, hin, hq⟩
      | false =>
          rw [if_neg Bool.false_ne_true, if_neg Bool.false_ne_true, List.length_cons]
          refine congrArg (· + 1) (ih fun q => ?_)
          rw [Bitboard.contains_union, Bool.or_eq_true, hused]
          constructor
          · rintro (⟨line, hin, hq⟩ | hq)
            · exact ⟨line, List.mem_cons_of_mem _ hin, hq⟩
            · exact ⟨_, List.mem_cons_self, hq⟩
          · rintro ⟨line, hin, hq⟩
            rcases List.mem_cons.1 hin with rfl | hin
            · exact Or.inr hq
            · exact Or.inl ⟨line, hin, hq⟩

/-! ## What a move scores -/

theorem Aftermath.men_eq (h : pos.Aftermath next) (hagrees : pos.state.Agrees) (c : Side) :
    next.men c = pos.men c := by
  apply Bitboard.ext_contains
  intro q
  rw [Bool.eq_iff_iff, men, men, (h.agrees hagrees).men, hagrees.men]
  show next.contentAt q = c.man ↔ pos.contentAt q = c.man
  rcases h.content q with hsame | ⟨hmarked, hempty⟩
  · rw [hsame]
  · rw [hmarked, hempty]
    exact ⟨fun hman => absurd hman.symm (Side.man_ne_empty c),
      fun hman => absurd hman.symm (Side.man_ne_marked c)⟩

theorem Consistent.men_placeMan (h : pos.Consistent) (hp : Point.onBoard p = true)
    (hfree : pos.contentAt p = .empty) (hhand : pos.state.inHand.get pos.state.side ≠ 0)
    (c : Side) :
    (pos.placeMan p).2.men c = (pos.drop p).men c := by
  obtain ⟨n, closed, _, heq, hsame, hclosed⟩ := h.placeMan_spec hp hfree hhand
  have hafter := (afterDrop_cases closed n).aftermath hclosed.agrees
  rw [heq, hafter.men_eq hclosed.agrees, men, men, hsame.layout]

theorem Consistent.men_slideMan (h : pos.Consistent) {a b : Point} (hb : Point.onBoard b = true)
    (hslide : pos.Slidable a b) (c : Side) :
    (pos.slideMan a b).2.men c = (pos.shift a b).men c := by
  obtain ⟨n, closed, opened, _, heq, hsame, _⟩ := h.slideMan_spec hb hslide
  rw [heq, men, men, (afterShift_cases closed a b opened n).sameMen.layout, hsame.layout]

theorem AfterShift.usedLines (h : pos.AfterShift next) :
    next.state.usedLines = pos.state.usedLines := by
  cases h with
  | calm slid =>
      exact congrArg Memory.usedLines (unremarked_settle (pos.remember slid).passTurn).memory
  | owed slid _ => rfl

/-- Where a line scores once, a man that comes to a point scores with the lines through it that its
side has filled then, and they are remembered. -/
structure Scoring (pos : Position) (p : Point) (r : Nat × Position) : Prop where
  count : r.1 = (scoreLines p ((Board.partners pos.rule.hasDiagonals p).filter
    fun pair => (r.2.men pos.state.side).covers pair) (pos.state.usedLines.get pos.state.side)).1
  usedLines : r.2.state.usedLines = pos.state.usedLines.set pos.state.side
    (scoreLines p ((Board.partners pos.rule.hasDiagonals p).filter
      fun pair => (r.2.men pos.state.side).covers pair)
      (pos.state.usedLines.get pos.state.side)).2

theorem scoring_of_scoreMills (moved : Position) {closed : Position} {n : Nat}
    (hone : moved.rule.oneTimeMills = true)
    (hscore : moved.scoreMills p moved.state.side = (n, closed)) :
    n = (scoreLines p ((Board.partners moved.rule.hasDiagonals p).filter
        fun pair => (moved.men moved.state.side).covers pair)
        (moved.state.usedLines.get moved.state.side)).1 ∧
      closed.state.usedLines = moved.state.usedLines.set moved.state.side
        (scoreLines p ((Board.partners moved.rule.hasDiagonals p).filter
          fun pair => (moved.men moved.state.side).covers pair)
          (moved.state.usedLines.get moved.state.side)).2 := by
  rw [scoreMills, if_pos hone] at hscore
  obtain ⟨rfl, rfl⟩ := Prod.mk.inj hscore
  exact ⟨rfl, rfl⟩

/-- A placement scores with the lines through its point. -/
theorem Consistent.scoring_placeMan (h : pos.Consistent) (hone : pos.rule.oneTimeMills = true)
    (hp : Point.onBoard p = true) (hfree : pos.contentAt p = .empty)
    (hhand : pos.state.inHand.get pos.state.side ≠ 0) : pos.Scoring p (pos.placeMan p) := by
  have hmen := h.men_placeMan hp hfree hhand pos.state.side
  obtain ⟨n, closed, hscore, heq, _, _⟩ := h.placeMan_spec hp hfree hhand
  obtain ⟨hcount, hused⟩ := scoring_of_scoreMills (pos.drop p) hone hscore
  have hmemory := congrArg Memory.usedLines (afterDrop_cases closed n).unremarked.memory
  rw [heq] at hmen ⊢
  constructor
  · rw [hmen]
    exact hcount
  · rw [hmen]
    exact hmemory.trans hused

/-- A slide scores with the lines through its end. -/
theorem Consistent.scoring_slideMan (h : pos.Consistent) (hone : pos.rule.oneTimeMills = true)
    {a : Point} (hp : Point.onBoard p = true) (hslide : pos.Slidable a p) :
    pos.Scoring p (pos.slideMan a p) := by
  have hmen := h.men_slideMan hp hslide pos.state.side
  obtain ⟨n, closed, opened, hscore, heq, _, _⟩ := h.slideMan_spec hp hslide
  obtain ⟨hcount, hused⟩ := scoring_of_scoreMills (pos.shift a p) hone hscore
  rw [heq] at hmen ⊢
  constructor
  · rw [hmen]
    exact hcount
  · rw [hmen]
    exact (afterShift_cases closed a p opened n).usedLines.trans hused

/-- What putting a man down on a point leaves for its lines. -/
structure Landing (pos : Position) (p : Point) (r : Nat × Position) : Prop where
  man : r.2.contentAt p = pos.state.side.man
  /-- No man has come to another point. -/
  others : ∀ c q, r.2.contentAt q = c.man → pos.contentAt q = c.man ∨ (c = pos.state.side ∧ q = p)
  score : (r.1 = 0 ∧ r.2.state.usedLines = pos.state.usedLines ∧ ∀ c, r.2.men c = pos.men c) ∨
    pos.Scoring p r

theorem Elsewhere.others {touched : List Point} (h : pos.Elsewhere next touched)
    {q : Point} (hq : q ∉ touched) (hman : next.contentAt q = c.man) :
    pos.contentAt q = c.man := by
  rcases h q hq with hsame | ⟨_, hempty, _⟩
  · exact hsame.symm.trans hman
  · rw [hempty] at hman
    exact absurd hman.symm (Side.man_ne_empty c)

/-- A man that is set down scores with the lines through its point or not at all, and no man comes
to another point. -/
theorem Sound.landing (h : pos.Sound) (hone : pos.rule.oneTimeMills = true)
    (hdown : pos.SetDown p r) : pos.Landing p r := by
  cases hdown with
  | placed hphase hp hfree hhand =>
      have hbegun := h.begun (hphase.imp_right And.left)
      have hplaced := placed_placeMan hbegun.toConsistent hp hfree hhand
      obtain ⟨hcount, hused⟩ := hbegun.scoring_placeMan hone hp hfree hhand
      refine ⟨hplaced.man, fun c q hman => ?_, Or.inr ⟨hcount, hused⟩⟩
      by_cases hq : q = p
      · rw [hq, hplaced.man] at hman
        exact Or.inr ⟨(Side.man_inj.1 hman).symm, hq⟩
      · exact Or.inl (hplaced.elsewhere.others (by simpa using hq) hman)
  -- a man picked up or dropped fills nothing
  | held s _ _ _ hman =>
      exact ⟨hman, fun _ _ hman' => Or.inl hman', Or.inl ⟨rfl, rfl, fun _ => rfl⟩⟩
  | @slid a _ _ hp hslide =>
      have hslid := slid_slideMan h.toConsistent hslide hp
      refine ⟨hslid.arrived, fun c q hman => ?_, Or.inr (h.scoring_slideMan hone hp hslide)⟩
      by_cases hq : q = p
      · rw [hq, hslid.arrived] at hman
        exact Or.inr ⟨(Side.man_inj.1 hman).symm, hq⟩
      · left
        have hqa : q ≠ a := by
          rintro rfl
          rw [hslid.left] at hman
          exact Side.man_ne_empty c hman.symm
        exact hslid.elsewhere.others (by simp [hq, hqa]) hman

/-! ## The lines filled in a game -/

/-- Note the lines through the target of a placement or slide that its side fills afterwards. -/
def noteFilled (pos : Position) (m : Move) (next : Position)
    (filled : PerSide (List Bitboard)) : PerSide (List Bitboard) :=
  if m.kind = .remove then filled
  else filled.update pos.state.side fun lines => next.filledLines pos.state.side m.target ++ lines

/-- Games of accepted moves, together with the lines that each side has filled right after one of
its placements or slides to one of their points. -/
inductive Filling (admits : Move → Prop) (rule : Rule) :
    Position → PerSide (List Bitboard) → Prop
  | begin {pos : Position} : ofRule rule = .ok pos → Filling admits rule pos (.both [])
  | move {pos next : Position} {filled : PerSide (List Bitboard)} {m : Move} :
      Filling admits rule pos filled → admits m → pos.apply m = .ok next →
        Filling admits rule next (pos.noteFilled m next filled)

variable {admits : Move → Prop} {rule : Rule} {filled : PerSide (List Bitboard)}

/-- A game whose filled lines are followed is a game. -/
theorem Filling.playedBy (h : Filling admits rule pos filled) : PlayedBy admits rule pos := by
  induction h with
  | begin hbegin => exact .begin hbegin
  | move _ hm hnext ih => exact ih.move hm hnext

/-- The lines filled can be followed in every game. -/
theorem PlayedBy.exists_filling (h : PlayedBy admits rule pos) :
    ∃ filled, Filling admits rule pos filled := by
  induction h with
  | begin hbegin => exact ⟨_, .begin hbegin⟩
  | move _ hm hnext ih =>
      obtain ⟨filled, hfilled⟩ := ih
      exact ⟨_, hfilled.move hm hnext⟩

/-- The points remembered are those of the lines filled, and no line is full that has not been noted
when it was filled. -/
structure Noted (pos : Position) (filled : PerSide (List Bitboard)) : Prop where
  used : ∀ c q, (pos.state.usedLines.get c).contains q = true ↔
    ∃ line ∈ filled.get c, line.contains q = true
  owned : ∀ c, ∀ line ∈ Board.lines pos.rule.hasDiagonals, (pos.men c).covers line = true →
    line ∈ filled.get c

theorem covers_of_others (hpos : pos.state.Agrees) (hnext : next.state.Agrees)
    {line : Bitboard} (hcovers : (next.men c).covers line = true)
    (hsame : ∀ q, line.contains q = true → next.contentAt q = c.man → pos.contentAt q = c.man) :
    (pos.men c).covers line = true := by
  obtain ⟨hsome, hwithin⟩ := Bitboard.covers_iff.1 hcovers
  refine Bitboard.covers_iff.2 ⟨hsome, fun q hq => ?_⟩
  exact (hpos.men c q).2 (hsame q hq ((hnext.men c q).1 (hwithin q hq)))

/-- A man that was only picked up has filled its lines before. -/
theorem Noted.used_of_held (h : pos.Noted filled) {c : Side} (hrule : next.rule = pos.rule)
    (hmen : next.men c = pos.men c) (q : Point) :
    (∃ line ∈ filled.get c, line.contains q = true) ↔
      ∃ line ∈ next.filledLines c p ++ filled.get c, line.contains q = true := by
  constructor
  · rintro ⟨line, hin, hq⟩
    exact ⟨line, List.mem_append_right _ hin, hq⟩
  · rintro ⟨line, hin, hq⟩
    rcases List.mem_append.1 hin with hfill | hin
    · obtain ⟨hline, hcovers, _⟩ := mem_filledLines.1 hfill
      rw [hrule] at hline
      rw [hmen] at hcovers
      exact ⟨line, h.owned c line hline hcovers, hq⟩
    · exact ⟨line, hin, hq⟩

/-- A man that scores adds its lines to those remembered. -/
theorem Noted.used_of_scoring (h : pos.Noted filled) (hrule : r.2.rule = pos.rule)
    (hp : Point.onBoard p = true) (hman : (r.2.men pos.state.side).contains p = true)
    (hscoring : pos.Scoring p r) (q : Point) :
    (r.2.state.usedLines.get pos.state.side).contains q = true ↔
      ∃ line ∈ r.2.filledLines pos.state.side p ++ filled.get pos.state.side,
        line.contains q = true := by
  rw [hscoring.usedLines, PerSide.get_set_self, contains_scoreLines, Bool.or_eq_true, h.used,
    ← map_insert_partners hp hman, hrule]
  simp only [List.any_eq_true, List.mem_append, List.mem_map]
  constructor
  · rintro (⟨line, hin, hq⟩ | ⟨pair, hpair, hq⟩)
    · exact ⟨line, Or.inr hin, hq⟩
    · exact ⟨_, Or.inl ⟨pair, hpair, rfl⟩, hq⟩
  · rintro ⟨line, ⟨pair, hpair, rfl⟩ | hin, hq⟩
    · exact Or.inr ⟨pair, hpair, hq⟩
    · exact Or.inl ⟨line, hin, hq⟩

theorem Noted.setDown (h : pos.Noted filled) (hsound : pos.Sound)
    (hone : pos.rule.oneTimeMills = true) (hdown : pos.SetDown p r) :
    r.2.Noted (filled.update pos.state.side
      fun lines => r.2.filledLines pos.state.side p ++ lines) := by
  have hlanding := hsound.landing hone hdown
  have hnext := hsound.setDown hdown
  have hp : Point.onBoard p = true := hnext.onBoard_of_man hlanding.man
  have hman : (r.2.men pos.state.side).contains p = true := (hnext.agrees.men _ p).2 hlanding.man
  constructor
  case used =>
    intro c q
    rw [PerSide.get_update]
    rcases hlanding.score with ⟨_, hused, hmen⟩ | hscoring
    · rw [hused, h.used]
      split
      · rename_i hc
        subst hc
        exact h.used_of_held hdown.rule (hmen _) q
      · exact Iff.rfl
    · split
      · rename_i hc
        subst hc
        exact h.used_of_scoring hdown.rule hp hman hscoring q
      · rename_i hc
        rw [hscoring.usedLines, PerSide.get_set_of_ne _ _ hc, h.used]
  case owned =>
    intro c line hline hcovers
    rw [PerSide.get_update]
    by_cases hthrough : c = pos.state.side ∧ line.contains p = true
    · obtain ⟨rfl, hthrough⟩ := hthrough
      rw [if_pos rfl]
      exact List.mem_append_left _ (mem_filledLines.2 ⟨hline, hcovers, hthrough⟩)
    -- any other line was covered before the move
    · have hbefore : (pos.men c).covers line = true := by
        refine covers_of_others hsound.agrees hnext.agrees hcovers fun q hq hman' => ?_
        rcases hlanding.others c q hman' with hsame | ⟨hc, rfl⟩
        · exact hsame
        · exact absurd ⟨hc, hq⟩ hthrough
      rw [hdown.rule] at hline
      have hin := h.owned c line hline hbefore
      split
      · exact List.mem_append_right _ hin
      · exact hin

theorem usedLines_takeMan (pos : Position) (p : Point) (target : Side) :
    (pos.takeMan p target).state.usedLines = pos.state.usedLines := by
  obtain ⟨l, k, heq, _⟩ := clearPoint_eq pos p
  simp only [takeMan]
  rw [heq]
  rfl

theorem Noted.removed (h : pos.Noted filled) (hsound : pos.Sound) (hremovable : pos.Removable p) :
    ((pos.takeMan p pos.removalTarget).afterTaking pos.removalTarget).Noted filled := by
  have hafter := afterTaking_cases (pos.takeMan p pos.removalTarget) pos.removalTarget
  have htaken := hsound.takeMan hremovable.man
  have hremoved := removed_takeMan hsound.toConsistent hremovable.man
  have hlifts := (hafter.lifts htaken.agrees).1
  have hrule := hlifts.rule.trans (takeMan_frame pos p pos.removalTarget).rule
  constructor
  case used =>
    intro c q
    have hmemory : _ = (pos.takeMan p pos.removalTarget).state.usedLines :=
      congrArg Memory.usedLines hafter.unremarked.memory
    have hused : ((pos.takeMan p pos.removalTarget).afterTaking pos.removalTarget).state.usedLines =
        pos.state.usedLines := hmemory.trans (usedLines_takeMan pos p _)
    rw [hused]
    exact h.used c q
  case owned =>
    intro c line hline hcovers
    rw [hrule] at hline
    refine h.owned c line hline (covers_of_others hsound.agrees (hlifts.agrees htaken.agrees)
      hcovers fun q _ hman => ?_)
    -- the man taken is not on the line, which is covered afterwards
    have hne : q ∉ [p] := by
      rw [List.mem_singleton]
      rintro rfl
      rcases hremoved.left with hempty | hmarked
      · rw [hempty] at hman
        exact Side.man_ne_empty c hman.symm
      · rw [hmarked] at hman
        exact Side.man_ne_marked c hman.symm
    exact hremoved.elsewhere.others hne hman

/-- In every position of such a game, the points used for scoring are those of the lines filled, and
every line that men cover is among these. -/
theorem Filling.noted (h : Filling admits rule pos filled) (hone : rule.oneTimeMills = true) :
    pos.Noted filled := by
  induction h with
  | begin hbegin =>
      obtain ⟨v, _, rfl⟩ := map_eq_ok_iff.1 hbegin
      constructor
      · intro c q
        have hnone : (ofVariant v).state.usedLines.get c = .empty := PerSide.get_both _ c
        rw [hnone, Bitboard.contains_empty, PerSide.get_both]
        exact ⟨nofun, nofun⟩
      · intro c line _ hcovers
        obtain ⟨hsome, hwithin⟩ := Bitboard.covers_iff.1 hcovers
        have hnone : (ofVariant v).men c = .empty := PerSide.get_both _ c
        rw [hnone] at hwithin
        have hempty : line.isEmpty = true := Bitboard.isEmpty_iff.2 fun q =>
          eq_false_of_ne_true fun hq => by
            have hin := hwithin q hq
            rw [Bitboard.contains_empty] at hin
            cases hin
        rw [hempty] at hsome
        cases hsome
  -- what is written down of a move is what setting a man down or removing one notes
  | @move pos next filled m hfilling hm hnext ih =>
      have hplayed := hfilling.playedBy
      obtain ⟨r, hstep, rfl⟩ := hplayed.sound.exists_step hnext
      rw [noteFilled]
      cases hstep with
      | down hkind hdown =>
          rw [if_neg hkind]
          have hnoted := ih.setDown hplayed.sound (hplayed.rule_eq ▸ hone) hdown
          exact ⟨hnoted.used, hnoted.owned⟩
      | removed hkind hremovable =>
          rw [if_pos hkind]
          have hnoted := ih.removed hplayed.sound hremovable
          exact ⟨hnoted.used, hnoted.owned⟩

/-- A man that comes to a point under a rule by which a line scores once returns the number of its
lines that have a point of their own. These are never more than the lines filled for the first time,
and as many if and only if every line filled for the first time has a point that belongs neither to
a line filled before nor to one listed before it. -/
theorem filling_score (h : Filling admits rule pos filled) (hone : rule.oneTimeMills = true)
    (hput : pos.put p = .ok r ∨ pos.release.put p = .ok r ∨ ∃ a, pos.slide a p = .ok r) :
    let before := filled.get pos.state.side
    let owned := r.2.filledLines pos.state.side p
    r.1 = (newLines before owned).length ∧
      r.1 ≤ (owned.filter fun line => line ∉ before).length ∧
      (r.1 = (owned.filter fun line => line ∉ before).length ↔ AllApart before before owned) := by
  intro before owned
  have hsound := h.playedBy.sound
  have hrule : pos.rule.oneTimeMills = true := h.playedBy.rule_eq ▸ hone
  have hnoted := h.noted hone
  have hdown := hsound.setDown_of_ok hput
  have hlanding := hsound.landing hrule hdown
  have hnext := hsound.setDown hdown
  have hp : Point.onBoard p = true := hnext.onBoard_of_man hlanding.man
  have hman : (r.2.men pos.state.side).contains p = true := (hnext.agrees.men _ p).2 hlanding.man
  have hcount : r.1 = (newLines before owned).length := by
    rcases hlanding.score with ⟨hnone, _, hmen⟩ | hscoring
    · -- a man picked up or let go fills no line
      have hold : ∀ line ∈ owned, line ∈ before := by
        intro line hline
        obtain ⟨hline, hcovers, _⟩ := mem_filledLines.1 hline
        rw [hdown.rule] at hline
        rw [hmen] at hcovers
        exact hnoted.owned _ line hline hcovers
      have hle : (newLines before owned).length ≤ _ := length_newLines_le (fun _ hin => hin) owned
      rw [List.filter_eq_nil_iff.2 fun line hline => by simp [hold line hline]] at hle
      rw [hnone]
      exact (Nat.le_zero.1 hle).symm
    · rw [hscoring.count, scoreLines_fst hp _ (hnoted.used pos.state.side), ← hdown.rule,
        map_insert_partners hp hman]
  rw [hcount]
  exact ⟨rfl, length_newLines_le (fun _ hin => hin) owned,
    length_newLines_eq_iff (fun _ hin => hin) owned⟩

/-- Play moves one after another, as long as they are accepted, and note the lines filled. -/
def fillAll? (pos : Position) (filled : PerSide (List Bitboard)) :
    List Move → Option (Position × PerSide (List Bitboard))
  | [] => some (pos, filled)
  | m :: ms => (pos.apply m).toOption.bind fun next =>
      next.fillAll? (pos.noteFilled m next filled) ms

theorem Filling.fillAll (h : Filling admits rule pos filled) {ms : List Move}
    (hms : ∀ m ∈ ms, admits m) {filled' : PerSide (List Bitboard)}
    (hnext : pos.fillAll? filled ms = some (next, filled')) : Filling admits rule next filled' := by
  induction ms generalizing pos filled with
  | nil =>
      cases hnext
      exact h
  | cons m ms ih =>
      obtain ⟨mid, hmid, hrest⟩ := Option.bind_eq_some_iff.1 hnext
      have hstep := h.move (hms m List.mem_cons_self) (toOption_eq_some_iff.1 hmid)
      exact ih hstep (fun r hr => hms r (List.mem_cons_of_mem m hr)) hrest

/-- Russian Mill, the built-in rule by which a line scores once. -/
def russianMill : Rule := Rule.presets[4]

/-- White fills the top and the bottom of the outer ring and stands on two points of the cross line
between them and on both sides of the last point of the left side. -/
def sharedPoints : List Move :=
  [.place 8, .place 20, .place 15, .place 22, .place 9, .remove 20, .place 28, .place 13, .place 24,
    .place 12, .place 19, .place 11, .remove 22, .place 30, .place 18, .place 17, .place 26,
    .place 22]

/-- The man on point 10 fills two lines for the first time and scores one: both other points of the
side that it fills belong to lines filled before, and the point itself to the cross line, which is
listed first. -/
theorem sharedPoints_spec :
    ∃ pos filled r, Filling Move.OnBoard russianMill pos filled ∧ pos.put 10 = .ok r ∧
      pos.state.side = .white ∧ r.1 = 1 ∧
      ((r.2.filledLines .white 10).filter fun line => line ∉ filled.get .white).length = 2 := by
  have hrun : ((ofVariant (.ofRule russianMill)).fillAll? (.both []) sharedPoints).any
      (fun q => (q.1.put 10).toOption.any fun r => decide (q.1.state.side = .white ∧ r.1 = 1 ∧
        ((r.2.filledLines .white 10).filter fun line => line ∉ q.2.get .white).length = 2)) =
          true := by
    decide +kernel
  obtain ⟨⟨pos, filled⟩, hfilled, hlast⟩ := (Option.any_eq_true _ _).1 hrun
  obtain ⟨r, hput, hfacts⟩ := (Option.any_eq_true _ _).1 hlast
  have hfilling : Filling Move.OnBoard russianMill pos filled :=
    (Filling.begin rfl).fillAll (show ∀ m ∈ sharedPoints, m.OnBoard by decide +kernel) hfilled
  exact ⟨pos, filled, r, hfilling, toOption_eq_some_iff.1 hput, of_decide_eq_true hfacts⟩

theorem filling_score_sharedPoints :
    ∃ pos filled r, Filling Move.OnBoard russianMill pos filled ∧ pos.put 10 = .ok r ∧
      (newLines (filled.get pos.state.side) (r.2.filledLines pos.state.side 10)).length = 1 ∧
      ¬ AllApart (filled.get pos.state.side) (filled.get pos.state.side)
        (r.2.filledLines pos.state.side 10) := by
  obtain ⟨pos, filled, r, hfilling, hput, hside, hone, htwo⟩ := sharedPoints_spec
  obtain ⟨hcount, _, hapart⟩ := filling_score hfilling rfl (Or.inl hput)
  refine ⟨pos, filled, r, hfilling, hput, hcount.symm.trans hone, fun hall => ?_⟩
  have hequal := hapart.2 hall
  rw [hone, hside, htwo] at hequal
  cases hequal

/-- A line filled for the first time may be passed over: what a man scores is not always the number
of such lines through its point. -/
theorem not_forall_filling_score :
    ¬ ∀ (rule : Rule) (pos : Position) (filled : PerSide (List Bitboard)) (p : Point)
        (r : Nat × Position), Filling Move.OnBoard rule pos filled → rule.oneTimeMills = true →
      pos.put p = .ok r →
      r.1 = ((r.2.filledLines pos.state.side p).filter
        fun line => line ∉ filled.get pos.state.side).length := by
  intro hall
  obtain ⟨pos, filled, r, hfilling, hput, hside, hone, htwo⟩ := sharedPoints_spec
  have hscore := hall _ pos filled 10 r hfilling rfl hput
  rw [hone, hside, htwo] at hscore
  cases hscore

end Position

end Morris
