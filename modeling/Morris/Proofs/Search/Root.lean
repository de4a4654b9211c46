import Morris.Proofs.Search.Node
import Morris.Search.Algorithm

/-!
# Searches of the root

Within a window, a search of a root whose children are searched for their values answers with the
greatest of them (`Rooted.rootAnswers`), and so the full window finds that value. A window around a
guess falls back to the full one if the value lies outside. MTD(f) narrows the bounds from both
sides, by at least the width of a pass each time, until they meet (`RootAnswers.closeIn_solved`).
The table that one search of the root leaves behind serves the next, since it still tells the truth.

The root of a tree of legal moves is the case in which every node is worth its value in the tree
(`Telling.rooted`).
-/

set_option autoImplicit false

namespace Morris.Search

variable {setup : Setup} {top : Position} {depth d : Nat} {alpha beta : Int} {w : Walk}

/-! ## The root -/

/-- A root to search: it is not over, more than one move is legal, and some depth is wanted. -/
structure Root (setup : Setup) (top : Position) (depth : Nat) : Prop extends
    Searchable setup top depth where
  unfinished : top.isOver = false
  choice : 2 ≤ top.legalMoves.length
  positive : 1 ≤ depth

/-- A root that gets its value from those of its children: the searches below it answer, the value
is the greatest one of a legal move, and the table may tell this value of the root and, from entries
of its depth, no other. -/
structure Rooted (holds : Key → Int → Int → Prop) (setup : Setup) (top : Position) (d : Nat)
    (value : Position → Int) (exact : Int) : Prop where
  undisturbed : setup.Undisturbed
  sound : top.Sound
  unfinished : top.isOver = false
  choice : 2 ≤ top.legalMoves.length
  bounded : -valueLimit ≤ exact ∧ exact ≤ valueLimit
  only : ∀ e, holds top.state.key ((d + 1 : Nat) : Int) e → e = exact
  tells : ∀ stored, ((d + 1 : Nat) : Int) ≤ stored → holds top.state.key stored exact
  answers : ∀ flavour, ∀ m ∈ top.legalMoves,
    Answers holds (node setup flavour d) (top.after m) (value (top.after m))
  best : ∃ m ∈ top.legalMoves, top.worth value m = exact
  greatest : ∀ m ∈ top.legalMoves, top.worth value m ≤ exact

variable {holds : Key → Int → Int → Prop} {value : Position → Int} {exact : Int}

/-- The root of a tree gets its value in the tree. -/
theorem Telling.rooted (h : Telling holds setup top (d + 1)) (hover : top.isOver = false)
    (hchoice : 2 ≤ top.legalMoves.length) :
    Rooted holds setup top d (negamax setup d) (negamax setup (d + 1) top) := by
  have hne : top.legalMoves ≠ [] :=
    List.ne_nil_of_length_pos (Nat.lt_of_lt_of_le Nat.zero_lt_two hchoice)
  obtain ⟨hbest, hmax⟩ := @Position.bestWorth_spec top (negamax setup d) hne
    (biased (setup.evaluator.value top) ((d + 1 : Nat) : Int))
  rw [← negamax_of_going hover] at hbest hmax
  exact ⟨h.steady.undisturbed, h.regular.toSound, hover, hchoice,
    h.steady.negamax_within h.deepest top, fun _ => h.only .top hover,
    fun stored => h.tells stored .top hover,
    fun flavour _ hm => answers_node h flavour (.child .top hover hm), hbest, hmax⟩

section

/-- What a search of the root within a window gives back. -/
structure RootAnswer (holds : Key → Int → Int → Prop) (alpha beta exact : Int) (w : Walk)
    (answer : Result × Walk) : Prop extends
    Answer holds alpha beta exact w (answer.1.value, answer.2) where
  choice : answer.1.unique = false

/-- A search of the root that answers every window: the flavour, the move known and the table do not
matter. -/
def RootAnswers (holds : Key → Int → Int → Prop) (setup : Setup) (top : Position) (depth : Nat)
    (exact : Int) : Prop :=
  ∀ flavour known alpha beta w, alpha < beta → w.position = top → Ready holds w →
    RootAnswer holds alpha beta exact w (root setup flavour depth known alpha beta w)

/-- Within a window, a search of the root answers with its value, which is not less than that of a
draw if a draw is at hand. -/
theorem Rooted.rootAnswers (h : Rooted holds setup top d value exact)
    (hdrawn : isPastMoveLimit top = true → 0 ≤ exact) :
    RootAnswers holds setup top (d + 1) exact := by
  intro flavour known alpha beta w hinside hw hready
  subst hw
  have hvisit := hready.visit h.undisturbed
  have hposition : (w.visit setup).position = w.position := rfl
  simp only [root]
  simp only [Int.toNat_natCast, hready.isAtEnd_visit h.undisturbed, h.unfinished, hposition,
    Bool.false_eq_true, if_false]
  generalize hlowest : (if isPastMoveLimit w.position = true then 0 else alpha) = lowest
  have hcut : isPastMoveLimit w.position = true → lowest = 0 := by
    intro hlimit
    rw [← hlowest, if_pos hlimit]
  -- an answer within the window that is searched is one within the window asked for
  have hwindow : ∀ answer, Answer holds lowest beta exact w answer →
      Answer holds alpha beta exact w answer := by
    intro answer hanswer
    split at hlowest
    · subst hlowest
      exact hanswer.of_drawn (hdrawn ‹_›)
    · rw [hlowest]
      exact hanswer
  split
  · rename_i hempty
    rw [hcut hempty.1] at hempty ⊢
    exact ⟨hvisit.drawn_answer (hdrawn hempty.1) hempty.2, rfl⟩
  · rename_i hopen
    have hinner : lowest < beta := by
      split at hlowest
      · rename_i hlimit
        exact Int.not_le.1 fun hle => hopen ⟨hlimit, hle⟩
      · rwa [← hlowest]
    have hprobe := hvisit.table.probe h.tells hinner
    generalize (w.visit setup).table.probe w.position.state.key ((d + 1 : Nat) : Int) lowest beta =
      probe at hprobe ⊢
    cases hcutoff : probe.cutoff with
    | some v =>
        obtain ⟨hwithin, hbounded, hproper⟩ := hprobe.settles v hcutoff
        -- every entry has a real move, so the root takes the value from the table as nodes do
        simp only [Option.filter, hproper]
        exact ⟨hwindow _ ⟨hwithin, hbounded, hvisit⟩, rfl⟩
    | none =>
        have hchildren : Children holds (child flavour (node setup flavour d)) w.position
            (w.position.worth value) :=
          children_of_answers h.sound h.unfinished fun m hm i flips =>
            answers_child (h.answers flavour m hm) flavour i flips
        have hanswer := searched_answer setup hchildren h.best h.greatest h.only h.bounded.1
          (hprobe.leaves hcutoff) hposition hvisit.toReady probe.move
        obtain ⟨first, second, rest, hranked⟩ := Position.exists_ranked_pair h.choice probe.move
        rw [hranked] at hanswer
        simp only [Option.filter, hranked]
        exact ⟨hwindow _ (hanswer.of_returned hvisit), rfl⟩

/-! ## Full and guessed windows -/

/-- A walk that has come back to the root from a search with a choice of moves, ready for another
search of the root. -/
structure Resumable (holds : Key → Int → Int → Prop) (top : Position) (answer : Result × Walk) :
    Prop extends Ready holds answer.2 where
  choice : answer.1.unique = false
  position : answer.2.position = top

/-- A search of the root that has found its value and may be followed by another one. -/
structure Solved (holds : Key → Int → Int → Prop) (top : Position) (exact : Int)
    (answer : Result × Walk) : Prop extends Resumable holds top answer where
  value : answer.1.value = exact

theorem RootAnswer.resumable {answer : Result × Walk}
    (h : RootAnswer holds alpha beta exact w answer) (hw : w.position = top) :
    Resumable holds top answer :=
  ⟨h.returned.toReady, h.choice, h.returned.position.trans hw⟩

theorem RootAnswers.fullWindow_solved (h : RootAnswers holds setup top depth exact)
    (flavour : Flavour) (known : Move) (hw : w.position = top) (hready : Ready holds w) :
    Solved holds top exact (fullWindow setup flavour depth known w) := by
  have hanswer := h flavour known _ _ w (by decide : -infinite < infinite) hw hready
  exact ⟨hanswer.resumable hw, hanswer.toAnswer.eq_of_full⟩

/-- A value outside the window around the guess is searched for again with the full window, over the
table that the first search leaves behind. -/
theorem RootAnswers.aspiration_solved (h : RootAnswers holds setup top depth exact) {guess : Int}
    (hguess : -infinite ≤ guess ∧ guess ≤ infinite) (hw : w.position = top)
    (hready : Ready holds w) :
    Solved holds top exact (aspiration setup depth guess w) := by
  have hinside : max (guess - aspirationWidth) (-infinite) <
      min (guess + aspirationWidth) infinite := by
    have hinfinite : infinite = 125 := rfl
    have hwidth : aspirationWidth = 6 := rfl
    omega
  have hfirst := h .principal .none _ _ w hinside hw hready
  rw [aspiration]
  simp only
  generalize root setup .principal depth .none (max (guess - aspirationWidth) (-infinite))
    (min (guess + aspirationWidth) infinite) w = first at hfirst ⊢
  split
  · exact h.fullWindow_solved .principal first.1.move (hfirst.returned.position.trans hw)
      hfirst.returned.toReady
  · rename_i hcond
    have hgoing : first.2.stopped = false := hfirst.returned.going
    -- the search is not stopped and has a choice, so the value has to lie inside
    have hinner : ¬(first.1.value ≤ max (guess - aspirationWidth) (-infinite) ∨
        min (guess + aspirationWidth) infinite ≤ first.1.value) := by
      intro houter
      exact hcond ⟨houter, by simp [hgoing, hfirst.choice]⟩
    rw [not_or, Int.not_le, Int.not_le] at hinner
    exact ⟨hfirst.resumable hw, hfirst.eq hinner.1 hinner.2⟩

/-! ## Passes with a narrow window -/

/-- The upper end of the window of a pass. -/
def passBeta (lower : Int) (last : Result) : Int :=
  if last.value = lower then last.value + passWidth else last.value

/-- A pass that is neither stopped nor without a choice moves one of the bounds. -/
theorem passes_of_going {lower upper : Int} (hopen : ¬upper ≤ lower) {last : Result}
    {pass : Result × Walk} (hpass : root setup .plain depth last.move
      (passBeta lower last - passWidth) (passBeta lower last) w = pass)
    (hchoice : pass.1.unique = false) (hgoing : pass.2.stopped = false) (fuel : Nat) :
    passes setup depth (fuel + 1) lower upper last w =
      if pass.1.value < passBeta lower last then
        passes setup depth fuel lower pass.1.value pass.1 pass.2
      else passes setup depth fuel pass.1.value upper pass.1 pass.2 := by
  have hstep : passes setup depth (fuel + 1) lower upper last w =
      if upper ≤ lower then (last, w)
      else
        let pass := root setup .plain depth last.move (passBeta lower last - passWidth)
          (passBeta lower last) w
        if pass.1.unique || pass.2.stopped then pass
        else if pass.1.value < passBeta lower last then
          passes setup depth fuel lower pass.1.value pass.1 pass.2
        else passes setup depth fuel pass.1.value upper pass.1 pass.2 := rfl
  rw [hstep, if_neg hopen, hpass]
  simp [hchoice, hgoing]

theorem passes_of_met {depth lower upper : Int} (hmet : upper ≤ lower) (fuel : Nat)
    (last : Result) : passes setup depth fuel lower upper last w = (last, w) := by
  cases fuel with
  | zero => rfl
  | succ fuel => rw [passes, if_pos hmet]

variable {last : Result}

/-- One pass answers within its window, and the bound that it moves goes into the next. -/
theorem passes_step (h : RootAnswers holds setup top depth exact) {lower upper : Int}
    (hopen : ¬upper ≤ lower) (hlast : Resumable holds top (last, w)) (fuel : Nat) :
    ∃ (r : Result) (next : Walk),
      Within (passBeta lower last - passWidth) (passBeta lower last) r.value exact ∧
      (-valueLimit ≤ r.value ∧ r.value ≤ valueLimit) ∧ Resumable holds top (r, next) ∧
      passes setup depth (fuel + 1) lower upper last w =
        if r.value < passBeta lower last then passes setup depth fuel lower r.value r next
        else passes setup depth fuel r.value upper r next := by
  have hinside : passBeta lower last - passWidth < passBeta lower last :=
    Int.sub_lt_self _ (by decide)
  have hpass := h .plain last.move _ _ w hinside hlast.position hlast.toReady
  exact ⟨_, _, hpass.toWithin, hpass.bounded, hpass.resumable hlast.position,
    passes_of_going hopen rfl hpass.choice hpass.returned.going fuel⟩

/-- A pass below an upper bound that the last one has found ends the search with the value, or
lowers the bound to the value or by the width of a pass. -/
theorem pass_down (h : RootAnswers holds setup top depth exact) (fuel : Nat) {lower : Int}
    (hlower : lower ≤ exact) (hupper : exact ≤ last.value) (hlast : Resumable holds top (last, w)) :
    Solved holds top exact (passes setup depth (fuel + 1) lower last.value last w) ∨
      ∃ (r : Result) (next : Walk), exact ≤ r.value ∧ r.value < last.value ∧
        (r.value = exact ∨ r.value ≤ last.value - passWidth) ∧ Resumable holds top (r, next) ∧
        passes setup depth (fuel + 1) lower last.value last w =
          passes setup depth fuel lower r.value r next := by
  by_cases hopen : last.value ≤ lower
  · left
    rw [passes_of_met hopen]
    exact ⟨hlast, Int.le_antisymm (Int.le_trans hopen hlower) hupper⟩
  · obtain ⟨r, next, hwithin, _, hnext, hstep⟩ := passes_step h hopen hlast fuel
    have hbeta : passBeta lower last = last.value := by
      rw [passBeta, if_neg (by omega)]
    rw [hbeta] at hwithin hstep
    rw [hstep]
    split
    · rename_i hlow
      refine Or.inr ⟨r, next, hwithin.above hlow, hlow, ?_, hnext, rfl⟩
      -- a value inside the window of the pass is exact
      rcases Int.lt_or_le (last.value - passWidth) r.value with hinner | houter
      · exact Or.inl (hwithin.eq hinner hlow)
      · exact Or.inr houter
    · rename_i hhigh
      have hwidth : passWidth = 5 := rfl
      -- the bound was the value, and the pass has found it again
      have hbelow := hwithin.below (by omega)
      have hvalue : r.value = exact := by omega
      left
      rw [passes_of_met (by omega)]
      exact ⟨hnext, hvalue⟩

/-- Passes below an upper bound reach the value if there are enough of them. -/
theorem passes_down (h : RootAnswers holds setup top depth exact) (fuel : Nat) {lower : Int}
    (hlower : lower ≤ exact) (hupper : exact ≤ last.value)
    (hfuel : last.value - exact ≤ passWidth * fuel) (hlast : Resumable holds top (last, w)) :
    Solved holds top exact (passes setup depth (fuel + 1) lower last.value last w) := by
  have hwidth : passWidth = 5 := rfl
  rw [hwidth] at hfuel
  induction fuel generalizing last w with
  | zero =>
      rcases pass_down h 0 hlower hupper hlast with hdone | ⟨r, next, hle, hlt, _⟩
      · exact hdone
      · omega
  | succ fuel ih =>
      rcases pass_down h (fuel + 1) hlower hupper hlast with
        hdone | ⟨r, next, hle, hlt, hfall, hnext, hstep⟩
      · exact hdone
      · rw [hstep]
        exact ih hle (by omega) hnext

/-- Passes above a lower bound raise it by the width of a pass until one of them finds the value. -/
theorem passes_up (h : RootAnswers holds setup top depth exact) (fuel : Nat) {upper : Int}
    (hlower : last.value ≤ exact) (hupper : exact ≤ upper)
    (hfuel : exact - last.value < passWidth * fuel) (hlast : Resumable holds top (last, w)) :
    Solved holds top exact (passes setup depth (fuel + 1) last.value upper last w) := by
  have hwidth : passWidth = 5 := rfl
  rw [hwidth] at hfuel
  induction fuel generalizing last w with
  | zero => omega
  | succ fuel ih =>
      by_cases hopen : upper ≤ last.value
      · have hvalue : last.value = exact := by omega
        rw [passes_of_met hopen]
        exact ⟨hlast, hvalue⟩
      · obtain ⟨r, next, hwithin, _, hnext, hstep⟩ := passes_step h hopen hlast (fuel + 1)
        have hbeta : passBeta last.value last = last.value + passWidth := by
          rw [passBeta, if_pos rfl]
        rw [hbeta] at hwithin hstep
        rw [hstep]
        split
        · rename_i hlow
          have habove := hwithin.above hlow
          -- a value below the window would be below the lower bound
          have hvalue : r.value = exact := by
            rcases Int.lt_or_le (last.value + passWidth - passWidth) r.value with hinner | houter
            · exact hwithin.eq hinner hlow
            · omega
          exact passes_down h fuel hlower habove (by rw [hwidth]; omega) hnext
        · rename_i hhigh
          have hbelow := hwithin.below (by omega)
          exact ih hbelow (by omega) hnext

/-- The first pass finds one of the bounds, and the passes that are left suffice from there. -/
theorem RootAnswers.closeIn_solved (h : RootAnswers holds setup top depth exact)
    (hexact : -valueLimit ≤ exact ∧ exact ≤ valueLimit) (guess : Int) (hw : w.position = top)
    (hready : Ready holds w) :
    Solved holds top exact (closeIn setup depth guess w) := by
  have hwidth : passWidth = 5 := rfl
  have hinfinite : infinite = 125 := rfl
  have hlimit : valueLimit = 120 := rfl
  have hstart : Resumable holds top (⟨guess, .none, false⟩, w) := ⟨hready, rfl, hw⟩
  -- once a pass has answered, the bound that it found is at most 48 widths away from the value
  obtain ⟨r, next, hwithin, hbounded, hnext, hstep⟩ :=
    passes_step h (by decide : ¬infinite ≤ -infinite) hstart 63
  have hclose : closeIn setup depth guess w =
      passes setup depth (63 + 1) (-infinite) infinite ⟨guess, .none, false⟩ w := rfl
  rw [hclose, hstep]
  split
  · rename_i hlow
    have habove := hwithin.above hlow
    exact passes_down h 62 (by omega) habove (by rw [hwidth]; omega) hnext
  · rename_i hhigh
    have hbelow := hwithin.below (by omega)
    exact passes_up h 62 hbelow (by omega) (by rw [hwidth]; omega) hnext

end

/-! ## The tree -/

/-- Within a window, a search of the root of a tree answers with its value there. -/
theorem Telling.rootAnswers (h : Telling holds setup top depth) (hover : top.isOver = false)
    (hchoice : 2 ≤ top.legalMoves.length) (hpositive : 1 ≤ depth) :
    RootAnswers holds setup top depth (negamax setup depth top) := by
  -- the root is a node of its own tree, with all of the depth left
  obtain ⟨d, rfl⟩ := Nat.exists_eq_add_of_le' hpositive
  apply (h.rooted hover hchoice).rootAnswers
  rw [h.regular.isPastMoveLimit_eq hover]
  nofun

theorem Root.rootAnswers (h : Root setup top depth) :
    RootAnswers (Valued setup top depth) setup top depth (negamax setup depth top) :=
  h.toSearchable.telling.rootAnswers h.unfinished h.choice h.positive

theorem fullWindow_value (h : Root setup top depth) (flavour : Flavour) (known : Move)
    (hw : w.position = top) (hready : Ready (Valued setup top depth) w) :
    (fullWindow setup flavour depth known w).1.value = negamax setup depth top :=
  (h.rootAnswers.fullWindow_solved flavour known hw hready).value

theorem aspiration_value (h : Root setup top depth) {guess : Int}
    (hguess : -infinite ≤ guess ∧ guess ≤ infinite) (hw : w.position = top)
    (hready : Ready (Valued setup top depth) w) :
    (aspiration setup depth guess w).1.value = negamax setup depth top :=
  (h.rootAnswers.aspiration_solved hguess hw hready).value

theorem closeIn_value (h : Root setup top depth) (guess : Int) (hw : w.position = top)
    (hready : Ready (Valued setup top depth) w) :
    (closeIn setup depth guess w).1.value = negamax setup depth top :=
  (h.rootAnswers.closeIn_solved (h.steady.negamax_within h.deepest top) guess hw hready).value

end Morris.Search
