import Morris.Proofs.Search.Table
import Morris.Proofs.Search.Tree

/-!
# What a search gives back

A search of a position answers a window with a value and leaves the walk where it was, with a table
that still tells the truth (`Search.Answers`). The property passes from the search of a child to the
ways in which a node uses it: with the window turned round (`AnswersFrom.childValue`) and with a
narrow window first (`AnswersFrom.scout`). From there it passes through the loop over the moves of a
node (`tryMoves_found`): as long as the window is open, the greatest value of a legal move is either
found already or still to come.
-/

set_option autoImplicit false

namespace Morris.Search

/-! ## Undisturbed searches -/

/-- A bound on the values of a search to at most the deepest depth. -/
def valueLimit : Int := Position.mate + depthLimit

/-- Whether anything but the evaluator may stop a search. -/
def Setup.isHurried (setup : Setup) : Bool := setup.timeIsUp || setup.stopAt.isSome

/-- A setup under which nothing stops a search. -/
structure Setup.Undisturbed (setup : Setup) : Prop where
  unlimited : setup.evaluator.stopAfter = none
  inTime : setup.isHurried = false

/-- A setup under which nothing stops a search, and whose evaluator stays within the value of a won
game. -/
structure Setup.Steady (setup : Setup) : Prop where
  bounded : ∀ pos, -Position.mate ≤ setup.evaluator.value pos ∧
    setup.evaluator.value pos ≤ Position.mate
  unlimited : setup.evaluator.stopAfter = none
  inTime : setup.isHurried = false

theorem Setup.stopsAt_of_not_hurried {setup : Setup} (h : setup.isHurried = false) (nodes : Nat) :
    setup.stopsAt nodes = false := by
  simp only [isHurried, Bool.or_eq_false_iff, Option.isSome_eq_false_iff, Option.isNone_iff_eq_none]
    at h
  simp [stopsAt, h.1, h.2]

theorem Setup.Steady.undisturbed {setup : Setup} (h : setup.Steady) : setup.Undisturbed :=
  ⟨h.unlimited, h.inTime⟩

/-- Values told from the keys are far from that of a won game. -/
theorem Setup.steady_byKey : Setup.Steady { evaluator := .byKey } := by
  refine ⟨fun pos => ?_, rfl, rfl⟩
  have hmate : Position.mate = 80 := rfl
  show -Position.mate ≤ ((pos.state.key.toNat % 61 : Nat) : Int) - 30 ∧
    ((pos.state.key.toNat % 61 : Nat) : Int) - 30 ≤ Position.mate
  omega

/-- A walk that has come back to where it was, with the table that it had, and goes on. -/
structure Unmoved (before after : Walk) : Prop where
  going : after.stopped = false
  position : after.position = before.position
  saved : after.saved = before.saved
  table : after.table = before.table

/-- A walk that goes on, with a table that tells the truth. -/
structure Ready (holds : Key → Int → Int → Prop) (w : Walk) : Prop where
  going : w.stopped = false
  table : w.table.Truthful holds valueLimit

/-- A walk that has come back to where it was and is ready to go on. -/
structure Returned (holds : Key → Int → Int → Prop) (before after : Walk) : Prop extends
    Ready holds after where
  position : after.position = before.position
  saved : after.saved = before.saved

/-- What a search within a window gives back. -/
structure Answer (holds : Key → Int → Int → Prop) (alpha beta exact : Int) (w : Walk)
    (answer : Int × Walk) : Prop extends Within alpha beta answer.1 exact where
  bounded : -valueLimit ≤ answer.1 ∧ answer.1 ≤ valueLimit
  returned : Returned holds w answer.2

/-- A search that values a position, whatever window it is asked with. -/
def Answers (holds : Key → Int → Int → Prop) (search : Searcher) (pos : Position)
    (exact : Int) : Prop :=
  ∀ alpha beta w, alpha < beta → w.position = pos → Ready holds w →
    Answer holds alpha beta exact w (search alpha beta w)

section

variable {holds : Key → Int → Int → Prop} {setup : Setup} {w w' : Walk}

theorem Unmoved.trans {w'' : Walk} (h : Unmoved w w') (h' : Unmoved w' w'') : Unmoved w w'' :=
  ⟨h'.going, h'.position.trans h.position, h'.saved.trans h.saved, h'.table.trans h.table⟩

theorem Setup.Undisturbed.visit (hsetup : setup.Undisturbed) (hgoing : w.stopped = false) :
    Unmoved w (w.visit setup) := by
  refine ⟨?_, rfl, rfl, rfl⟩
  simp [Walk.visit, hgoing, Setup.stopsAt_of_not_hurried hsetup.inTime]

theorem Setup.Undisturbed.evaluate (hsetup : setup.Undisturbed) (hgoing : w.stopped = false) :
    Unmoved w (w.evaluate setup).2 := by
  refine ⟨?_, rfl, rfl, rfl⟩
  simp [Walk.evaluate, hgoing, hsetup.unlimited]

/-- A position that is searched further is not over. -/
theorem unfinished_of_visit (h : ¬ (w.visit setup).isAtEnd = true) : w.position.isOver = false := by
  rw [Walk.isAtEnd, Bool.or_eq_true, not_or] at h
  exact eq_false_of_ne_true h.1

theorem Setup.Undisturbed.isAtEnd_visit (hsetup : setup.Undisturbed) (hgoing : w.stopped = false) :
    (w.visit setup).isAtEnd = w.position.isOver := by
  rw [Walk.isAtEnd, (hsetup.visit hgoing).going, Bool.or_false]
  rfl

theorem Ready.mono {holds' : Key → Int → Int → Prop} (h : Ready holds w)
    (hless : ∀ key stored exact, holds' key stored exact → holds key stored exact) :
    Ready holds' w :=
  ⟨h.going, h.table.mono hless⟩

theorem Ready.returned (h : Ready holds w) : Returned holds w w := ⟨h, rfl, rfl⟩

theorem Returned.trans {w'' : Walk} (h : Returned holds w w') (h' : Returned holds w' w'') :
    Returned holds w w'' :=
  ⟨h'.toReady, h'.position.trans h.position, h'.saved.trans h.saved⟩

theorem Ready.of_unmoved (h : Ready holds w) (hback : Unmoved w w') : Returned holds w w' :=
  ⟨⟨hback.going, hback.table ▸ h.table⟩, hback.position, hback.saved⟩

theorem Ready.visit (h : Ready holds w) (hsetup : setup.Undisturbed) :
    Returned holds w (w.visit setup) :=
  h.of_unmoved (hsetup.visit h.going)

theorem Ready.evaluate (h : Ready holds w) (hsetup : setup.Undisturbed) :
    Returned holds w (w.evaluate setup).2 :=
  h.of_unmoved (hsetup.evaluate h.going)

/-- A search may answer from another walk in the same place. -/
theorem Answer.of_returned {alpha beta exact : Int} {answer : Int × Walk}
    (h : Answer holds alpha beta exact w' answer) (hw : Returned holds w w') :
    Answer holds alpha beta exact w answer :=
  ⟨h.toWithin, h.bounded, hw.trans h.returned⟩

/-- The value itself is an answer in every window. -/
theorem Returned.answer {exact : Int} (h : Returned holds w w') (alpha beta : Int)
    (hbounded : -valueLimit ≤ exact ∧ exact ≤ valueLimit) :
    Answer holds alpha beta exact w (exact, w') :=
  ⟨within_self alpha beta exact, hbounded, h⟩

theorem Ready.isAtEnd_visit (h : Ready holds w) (hsetup : setup.Undisturbed) :
    (w.visit setup).isAtEnd = w.position.isOver :=
  hsetup.isAtEnd_visit h.going

end

/-! ## Searches of children -/

/-- A search that values a position with given states to return to, whatever window it is asked
with. -/
def AnswersFrom (holds : Key → Int → Int → Prop) (search : Searcher) (pos : Position)
    (saved : List State) (exact : Int) : Prop :=
  ∀ alpha beta w, alpha < beta → w.position = pos → w.saved = saved → Ready holds w →
    Answer holds alpha beta exact w (search alpha beta w)

section

variable {holds : Key → Int → Int → Prop} {search : Searcher} {pos : Position} {exact : Int}
  {saved : List State}

theorem answers_iff_from :
    Answers holds search pos exact ↔ ∀ saved, AnswersFrom holds search pos saved exact :=
  ⟨fun h _ alpha beta w hinside hpos _ hready => h alpha beta w hinside hpos hready,
    fun h alpha beta w hinside hpos hready => h w.saved alpha beta w hinside hpos rfl hready⟩

theorem AnswersFrom.childValue (h : AnswersFrom holds search pos saved exact) (flips : Bool) :
    AnswersFrom holds (childValue search flips) pos saved (if flips then -exact else exact) := by
  intro alpha beta w hinside hpos hsaved hready
  cases flips with
  | false => exact h alpha beta w hinside hpos hsaved hready
  | true =>
      have hturned := h (-beta) (-alpha) w (by omega) hpos hsaved hready
      obtain ⟨hlow, hhigh⟩ := hturned.bounded
      exact ⟨hturned.toWithin.neg, ⟨Int.neg_le_neg hhigh, Int.neg_le_of_neg_le hlow⟩,
        hturned.returned⟩

/-- A narrow window suffices unless the value falls inside the real one, which is then searched. -/
theorem AnswersFrom.scout {flips : Bool}
    (h : AnswersFrom holds (Search.childValue search flips) pos saved exact) :
    AnswersFrom holds (scout search flips) pos saved exact := by
  intro alpha beta w hinside hpos hsaved hready
  have hwidth : alpha < alpha + scoutWidth := Int.lt_add_of_pos_right alpha (by decide)
  have hnarrow := h alpha (alpha + scoutWidth) w hwidth hpos hsaved hready
  have hscout : Search.scout search flips alpha beta w =
      let first := Search.childValue search flips alpha (alpha + scoutWidth) w
      if alpha < first.1 ∧ first.1 < beta ∧ ¬first.2.stopped then
        Search.childValue search flips alpha beta first.2
      else first := rfl
  rw [hscout]
  -- from here on only what the narrow search has answered matters
  generalize Search.childValue search flips alpha (alpha + scoutWidth) w = first at hnarrow ⊢
  simp only
  split
  · have hreal := h alpha beta first.2 hinside (hnarrow.returned.position.trans hpos)
      (hnarrow.returned.saved.trans hsaved) hnarrow.returned.toReady
    exact hreal.of_returned hnarrow.returned
  · rename_i hcond
    refine ⟨⟨fun hlt => ?_, hnarrow.below⟩, hnarrow.bounded, hnarrow.returned⟩
    apply hnarrow.above
    -- a value below beta that is not searched for again lies below the narrow window
    have hlow : first.1 ≤ alpha := by
      apply Int.not_lt.1
      intro habove
      exact hcond ⟨habove, hlt, by simp [hnarrow.returned.going]⟩
    exact Int.lt_of_le_of_lt hlow hwidth

theorem AnswersFrom.child (h : AnswersFrom holds search pos saved exact) (flavour : Flavour)
    (index : Nat) (flips : Bool) :
    AnswersFrom holds (child flavour search index flips) pos saved
      (if flips then -exact else exact) := by
  simp only [Search.child]
  split
  · exact (h.childValue flips).scout
  · exact h.childValue flips

theorem answers_childValue (h : Answers holds search pos exact) (flips : Bool) :
    Answers holds (childValue search flips) pos (if flips then -exact else exact) :=
  answers_iff_from.2 fun saved => (answers_iff_from.1 h saved).childValue flips

theorem answers_child (h : Answers holds search pos exact) (flavour : Flavour) (index : Nat)
    (flips : Bool) :
    Answers holds (child flavour search index flips) pos (if flips then -exact else exact) :=
  answers_iff_from.2 fun saved => (answers_iff_from.1 h saved).child flavour index flips

end

/-! ## Moves played and taken back -/

theorem play?_eq {w : Walk} {m : Move} (h : w.position.apply m = .ok (w.position.after m)) :
    w.play? m = some (w.position.flips m,
      { w with position := w.position.after m, saved := w.position.state :: w.saved }) := by
  rw [Walk.play?, Position.makeMove, h]
  rfl

theorem takeBack_eq {pos : Position} {saved : List State} {w : Walk}
    (hvariant : w.position.variant = pos.variant) (hsaved : w.saved = pos.state :: saved) :
    w.takeBack = { w with position := pos, saved := saved } := by
  rw [Walk.takeBack, hsaved]
  simp only [Position.unmakeMove?, hvariant]

/-- After a search of the position that a move leads to, taking the move back leads to where it was
made. -/
theorem Returned.of_played {holds : Key → Int → Int → Prop} {w w' : Walk} {next : Position}
    (h : Returned holds { w with position := next, saved := w.position.state :: w.saved } w')
    (hvariant : next.variant = w.position.variant) : Returned holds w w'.takeBack := by
  -- the state comes from the saved ones, and the variant has not changed
  rw [takeBack_eq ((congrArg Position.variant h.position).trans hvariant) h.saved]
  exact ⟨⟨h.going, h.table⟩, rfl, rfl⟩

/-! ## The loop over the moves -/

/-- What a node has found when its moves have been searched within a window. -/
structure Found (alpha beta exact : Int) (p : Progress) : Prop extends
    Within alpha beta p.best exact where
  bounded : -valueLimit ≤ p.best ∧ p.best ≤ valueLimit
  proper : p.bestMove.isProper = true

/-- What a node has found while moves are left to search. The window is open, alpha has been raised
to the best value found if at all, and a move with the true value is among the moves left unless the
best value has reached it. -/
structure Pending (value : Move → Int) (alpha beta exact : Int) (rest : List RankedMove)
    (p : Progress) : Prop where
  inside : p.alpha < beta
  below : p.best = -infinite ∨ p.best ≤ p.alpha
  raised : p.alpha = alpha ∨ (p.alpha = p.best ∧ p.best ≤ exact)
  left : exact ≤ p.best ∨ ∃ r ∈ rest, value r.move = exact
  tried : p.best = -infinite ∨
    ((-valueLimit ≤ p.best ∧ p.best ≤ valueLimit) ∧ p.bestMove.isProper = true)

theorem neg_infinite_lt {v : Int} (h : -valueLimit ≤ v) : -infinite < v :=
  Int.lt_of_lt_of_le (by decide) h

/-- In the full window the answer is the value. -/
theorem Answer.eq_of_full {holds : Key → Int → Int → Prop} {exact : Int} {w : Walk}
    {answer : Int × Walk}
    (h : Answer holds (-infinite) infinite exact w answer) : answer.1 = exact := by
  have hhigh : valueLimit < infinite := by decide
  exact h.eq (neg_infinite_lt h.bounded.1) (Int.lt_of_le_of_lt h.bounded.2 hhigh)

namespace Pending

variable {value : Move → Int} {alpha beta exact : Int} {rest : List RankedMove} {p : Progress}

theorem start (hinside : alpha < beta) (hleft : ∃ r ∈ rest, value r.move = exact) :
    Pending value alpha beta exact rest { alpha := alpha } :=
  ⟨hinside, Or.inl rfl, Or.inl rfl, Or.inr hleft, Or.inl rfl⟩

/-- When no move is left, the best value found is an answer. -/
theorem found (h : Pending value alpha beta exact [] p) (hexact : -valueLimit ≤ exact) :
    Found alpha beta exact p := by
  have hreached : exact ≤ p.best := by
    rcases h.left with hle | ⟨r, hr, _⟩
    · exact hle
    · cases hr
  have hne : p.best ≠ -infinite := by
    have hlt := neg_infinite_lt (Int.le_trans hexact hreached)
    omega
  obtain ⟨hbounded, hproper⟩ := h.tried.resolve_left hne
  refine ⟨⟨fun _ => hreached, fun hlt => ?_⟩, hbounded, hproper⟩
  have hle := h.below.resolve_left hne
  rcases h.raised with heq | ⟨_, htrue⟩
  · omega
  · exact htrue

variable {r : RankedMove} {v : Int}

/-- A value that is not better than the best one changes nothing. -/
theorem skip (h : Pending value alpha beta exact (r :: rest) p)
    (hv : Within p.alpha beta v (value r.move)) (hbounded : -valueLimit ≤ v ∧ v ≤ valueLimit)
    (hworse : ¬p.best < v) : Pending value alpha beta exact rest p := by
  have hne : p.best ≠ -infinite := by
    have hlt := neg_infinite_lt hbounded.1
    omega
  have hle := h.below.resolve_left hne
  have hinside := h.inside
  refine ⟨hinside, h.below, h.raised, ?_, h.tried⟩
  rcases h.left with hreached | ⟨r', hr', hexact⟩
  · exact Or.inl hreached
  · rcases List.mem_cons.1 hr' with rfl | hrest
    -- the value of this move is no greater than the best one
    · have habove := hv.above (by omega)
      exact Or.inl (by omega)
    · exact Or.inr ⟨r', hrest, hexact⟩

/-- A better value that does not raise alpha is the best one now. -/
theorem better (h : Pending value alpha beta exact (r :: rest) p)
    (hv : Within p.alpha beta v (value r.move)) (hbounded : -valueLimit ≤ v ∧ v ≤ valueLimit)
    (hproper : r.move.isProper = true) (hbetter : p.best < v) (hlow : ¬p.alpha < v) :
    Pending value alpha beta exact rest { p with best := v, bestMove := r.move } := by
  have hinside := h.inside
  refine ⟨hinside, Or.inr (Int.not_lt.1 hlow), ?_, ?_, Or.inr ⟨hbounded, hproper⟩⟩
  -- had alpha been raised, it would be the best value, and the new one would raise it again
  · rcases h.raised with heq | ⟨heq, _⟩
    · exact Or.inl heq
    · omega
  · rcases h.left with hreached | ⟨r', hr', hexact⟩
    · exact Or.inl (show exact ≤ v by omega)
    · rcases List.mem_cons.1 hr' with rfl | hrest
      · exact Or.inl (hexact ▸ hv.above (by omega))
      · exact Or.inr ⟨r', hrest, hexact⟩

/-- A value inside the window raises alpha. -/
theorem raise (h : Pending value alpha beta exact (r :: rest) p)
    (hv : Within p.alpha beta v (value r.move)) (hbounded : -valueLimit ≤ v ∧ v ≤ valueLimit)
    (hproper : r.move.isProper = true) (hmax : value r.move ≤ exact) (hbetter : p.best < v)
    (hlow : p.alpha < v) (hhigh : ¬beta ≤ v) (raised : Option Move) :
    Pending value alpha beta exact rest ⟨v, v, r.move, raised⟩ := by
  -- inside the window the value of the child is exact
  have heq := hv.eq hlow (Int.not_le.1 hhigh)
  refine ⟨Int.not_le.1 hhigh, Or.inr (Int.le_refl v), Or.inr ⟨rfl, heq ▸ hmax⟩, ?_,
    Or.inr ⟨hbounded, hproper⟩⟩
  rcases h.left with hreached | ⟨r', hr', hexact⟩
  · exact Or.inl (show exact ≤ v by omega)
  · rcases List.mem_cons.1 hr' with rfl | hrest
    · exact Or.inl (show exact ≤ v by omega)
    · exact Or.inr ⟨r', hrest, hexact⟩

end Pending

/-- A value at or beyond the upper end of the window is an answer, whatever moves are left. -/
theorem found_of_cutoff {alpha beta exact v : Int} {m : Move} {p : Progress}
    (hinside : p.alpha < beta)
    {value : Int} (hv : Within p.alpha beta v value)
    (hbounded : -valueLimit ≤ v ∧ v ≤ valueLimit) (hproper : m.isProper = true)
    (hmax : value ≤ exact) (hbeta : beta ≤ v) (raised : Option Move) :
    Found alpha beta exact ⟨p.alpha, v, m, raised⟩ := by
  have hlow := hv.below (Int.lt_of_lt_of_le hinside hbeta)
  refine ⟨⟨fun hlt => ?_, fun _ => Int.le_trans hlow hmax⟩, hbounded, hproper⟩
  exact absurd hbeta (Int.not_le.2 hlt)

/-- A way to search the children of a position that values each of them. -/
structure Children (holds : Key → Int → Int → Prop) (child : Nat → Bool → Searcher) (pos : Position)
    (value : Move → Int) : Prop where
  accepted : ∀ m ∈ pos.legalMoves, pos.apply m = .ok (pos.after m)
  variant : ∀ m ∈ pos.legalMoves, (pos.after m).variant = pos.variant
  proper : ∀ m ∈ pos.legalMoves, m.isProper = true
  answers : ∀ m ∈ pos.legalMoves, ∀ i,
    Answers holds (child i (pos.flips m)) (pos.after m) (value m)

section

variable {holds : Key → Int → Int → Prop} {child : Nat → Bool → Searcher} {pos : Position}
  {value : Move → Int}

/-- A legal move is played, its child searched, and the move taken back. -/
theorem Children.step (h : Children holds child pos value) {m : Move} (hm : m ∈ pos.legalMoves)
    {alpha beta : Int} (hinside : alpha < beta) {w : Walk} (hpos : w.position = pos)
    (hready : Ready holds w) (i : Nat) :
    ∃ played, w.play? m = some (pos.flips m, played) ∧
      Answer holds alpha beta (value m) w
        ((child i (pos.flips m) alpha beta played).1,
          (child i (pos.flips m) alpha beta played).2.takeBack) := by
  subst hpos
  refine ⟨_, play?_eq (h.accepted m hm), ?_⟩
  have hanswer := h.answers m hm i alpha beta
    { w with position := w.position.after m, saved := w.position.state :: w.saved }
    hinside rfl ⟨hready.going, hready.table⟩
  exact ⟨hanswer.toWithin, hanswer.bounded, hanswer.returned.of_played (h.variant m hm)⟩

/-- The loop over the moves of a node finds the greatest of their values to within the window. -/
theorem tryMoves_found (h : Children holds child pos value) {alpha beta exact : Int}
    (hmax : ∀ m ∈ pos.legalMoves, value m ≤ exact) (hexact : -valueLimit ≤ exact)
    {rest : List RankedMove} (hrest : ∀ r ∈ rest, r.move ∈ pos.legalMoves) {p : Progress}
    (hp : Pending value alpha beta exact rest p) {w : Walk} (hpos : w.position = pos)
    (hready : Ready holds w) (i : Nat) :
    Found alpha beta exact (tryMoves child beta i rest p w).1 ∧
      Returned holds w (tryMoves child beta i rest p w).2 := by
  induction rest generalizing p w i with
  | nil => exact ⟨hp.found hexact, hready.returned⟩
  | cons r rest ih =>
      have hm := hrest r List.mem_cons_self
      obtain ⟨played, hplay, hanswer⟩ := h.step hm hp.inside hpos hready i
      rw [tryMoves, hplay]
      simp only
      generalize child i (pos.flips r.move) p.alpha beta played = answer at hanswer ⊢
      obtain ⟨v, w'⟩ := answer
      simp only at hanswer ⊢
      have hback : Returned holds w w'.takeBack := hanswer.returned
      -- the loop goes on from the walk that has come back, with what has been found by then
      have hnext : ∀ p', Pending value alpha beta exact rest p' →
          Found alpha beta exact (tryMoves child beta (i + 1) rest p' w'.takeBack).1 ∧
            Returned holds w (tryMoves child beta (i + 1) rest p' w'.takeBack).2 := by
        intro p' hp'
        obtain ⟨hfound, hreturned⟩ := ih (fun r' hr' => hrest r' (List.mem_cons_of_mem r hr')) hp'
          (hback.position.trans hpos) hback.toReady (i + 1)
        exact ⟨hfound, hback.trans hreturned⟩
      rw [if_neg (by simp [hback.going])]
      -- the value is cut off, raises alpha, is only the best one so far, or is none of these
      split
      · rename_i hbetter
        split
        · rename_i hlow
          split
          · rename_i hbeta
            exact ⟨found_of_cutoff hp.inside hanswer.toWithin hanswer.bounded (h.proper _ hm)
              (hmax _ hm) hbeta _, hback⟩
          · rename_i hhigh
            exact hnext _ (hp.raise hanswer.toWithin hanswer.bounded (h.proper _ hm) (hmax _ hm)
              hbetter hlow hhigh _)
        · rename_i hlow
          exact hnext _ (hp.better hanswer.toWithin hanswer.bounded (h.proper _ hm) hbetter hlow)
      · rename_i hworse
        exact hnext _ (hp.skip hanswer.toWithin hanswer.bounded hworse)

end

end Morris.Search
