import Morris.Proofs.Draws
import Morris.Proofs.Search.Workers

/-!
# Draws in a search

A drawn game is worth nothing to either side, but a search does not value it so. The value of a node
at which the game is over is biased by the depth that is left there, away from zero; a value of zero
has no sign and counts with the lost ones. A draw by a finished game is therefore worth minus the
depth left at its node to the side to move there (`flat_node_of_over`). A position that repeats an
earlier one of the game is worth nothing (`flat_node_of_repeated`).

Such nodes have the same value in every window (`Search.Flat`). When all the moves of a root lead to
nodes of one value, all algorithms agree on the value of the root (`Level.search_value`). So a root
whose moves all draw the game at once is worth the depth less one if one of them passes the turn,
and otherwise minus that, and one whose moves all repeat earlier positions is worth nothing
(`reachable_search_value_drawn`).
-/

set_option autoImplicit false

namespace Morris

/-- An evaluator by which a drawn game is worth nothing. -/
def Evaluator.Neutral (e : Evaluator) : Prop :=
  ∀ pos, pos.isOver = true → pos.state.winner = .draw → e.value pos = 0

theorem Evaluator.neutral_handcrafted (withMobility : Bool) :
    (Evaluator.handcrafted withMobility).Neutral := by
  intro pos hover hwinner
  have hphase : pos.state.phase = .finished := by simpa [Position.isOver] using hover
  have hwhite : pos.valueForWhite withMobility = 0 := by
    simp only [Position.valueForWhite, hphase, hwinner]
  show pos.valueForMover withMobility = 0
  simp only [Position.valueForMover, hwhite]
  split <;> rfl

namespace Search

variable {holds : Key → Int → Int → Prop} {setup : Setup} {top pos : Position} {c : Int} {d : Nat}
  {w : Walk}

/-! ## Searches of one value -/

/-- A search that finds one and the same value of a position in every window. -/
def Flat (holds : Key → Int → Int → Prop) (search : Searcher) (pos : Position) (c : Int) : Prop :=
  ∀ alpha beta w, w.position = pos → Ready holds w →
    (search alpha beta w).1 = c ∧ Returned holds w (search alpha beta w).2

section

variable {search : Searcher}

theorem Flat.answers (h : Flat holds search pos c) (hbounded : -valueLimit ≤ c ∧ c ≤ valueLimit) :
    Answers holds search pos c := by
  intro alpha beta w _ hpos hready
  obtain ⟨hvalue, hreturned⟩ := h alpha beta w hpos hready
  have hanswer := hreturned.answer alpha beta hbounded
  rw [← hvalue] at hanswer ⊢
  exact hanswer

theorem flat_childValue (h : Flat holds search pos c) (flips : Bool) :
    Flat holds (childValue search flips) pos (if flips then -c else c) := by
  intro alpha beta w hpos hready
  cases flips with
  | false => exact h alpha beta w hpos hready
  | true =>
      obtain ⟨hvalue, hreturned⟩ := h (-beta) (-alpha) w hpos hready
      exact ⟨congrArg Neg.neg hvalue, hreturned⟩

theorem flat_child (h : Flat holds search pos c) (flavour : Flavour) (index : Nat) (flips : Bool) :
    Flat holds (child flavour search index flips) pos (if flips then -c else c) := by
  simp only [child]
  split
  · intro alpha beta w hpos hready
    have hfirst := flat_childValue h flips alpha (alpha + scoutWidth) w hpos hready
    simp only [scout]
    generalize childValue search flips alpha (alpha + scoutWidth) w = first at hfirst ⊢
    -- the second search, if there is one, finds the same value again
    split
    · have hsecond := flat_childValue h flips alpha beta first.2
        (hfirst.2.position.trans hpos) hfirst.2.toReady
      exact ⟨hsecond.1, hfirst.2.trans hsecond.2⟩
    · exact hfirst
  · exact flat_childValue h flips

end

/-! ## Nodes of one value -/

theorem Returned.static_eq {w' : Walk} (h : Returned holds w w') (hsetup : setup.Undisturbed)
    (depth : Int) :
    (staticValue setup depth w').1 = biased (setup.evaluator.value w.position) depth ∧
      Returned holds w (staticValue setup depth w').2 := by
  rw [← h.position]
  exact ⟨rfl, h.trans (h.toReady.evaluate hsetup)⟩

/-- Where the game is over and the evaluator sees nothing in it, the search finds minus the depth
that is left. -/
theorem flat_node_of_over (hsetup : setup.Undisturbed) (hover : pos.isOver = true)
    (hvalue : setup.evaluator.value pos = 0) (flavour : Flavour) (d : Nat) :
    Flat holds (node setup flavour d) pos (-(d : Int)) := by
  intro alpha beta w hpos hready
  subst hpos
  have hend := (hready.isAtEnd_visit hsetup).trans hover
  obtain ⟨hstatic, hreturned⟩ := (hready.visit hsetup).static_eq hsetup (d : Int)
  have hbiased : biased (setup.evaluator.value w.position) (d : Int) = -(d : Int) := by
    rw [hvalue, biased, if_neg (by decide), Int.zero_sub]
  -- the horizon and the nodes above it look for the end of the game before anything else
  cases d with
  | zero =>
      simp only [node, horizon, hend, if_true]
      exact ⟨hstatic.trans hbiased, hreturned⟩
  | succ d =>
      simp only [node, hend, if_true]
      exact ⟨hstatic.trans hbiased, hreturned⟩

/-- A position that goes on as a repetition of an earlier one of the game. -/
structure Repeated (setup : Setup) (pos : Position) : Prop where
  going : pos.isOver = false
  rule : pos.rule.threefoldRepetition = true
  moving : pos.state.phase = .moving
  earlier : pos.state.key ∈ setup.gameKeys

/-- With some depth left, the search finds nothing in a repeated position. -/
theorem flat_node_of_repeated (hsetup : setup.Undisturbed) (h : Repeated setup pos)
    (flavour : Flavour) (d : Nat) : Flat holds (node setup flavour (d + 1)) pos 0 := by
  intro alpha beta w hpos hready
  subst hpos
  have hend := (hready.isAtEnd_visit hsetup).trans h.going
  have hrepetition : isRepetition setup (w.visit setup) = true := by
    have hposition : (w.visit setup).position = w.position := rfl
    simp [isRepetition, hposition, h.rule, h.moving, h.earlier]
  rw [node_of_repetition hend hrepetition]
  exact ⟨rfl, hready.visit hsetup⟩

/-! ## Roots above nodes of one value -/

/-- A root all of whose moves lead to nodes of one value, which is not positive. -/
structure Level (setup : Setup) (top : Position) (d : Nat) (c : Int) : Prop where
  undisturbed : setup.Undisturbed
  sound : top.Sound
  unfinished : top.isOver = false
  choice : 2 ≤ top.legalMoves.length
  bounded : -valueLimit ≤ c ∧ c ≤ 0
  flat : ∀ holds flavour, ∀ m ∈ top.legalMoves, Flat holds (node setup flavour d) (top.after m) c

/-- The value of a root whose moves all lead to a value that is not positive: a move that passes the
turn is the best one. -/
def levelValue (top : Position) (c : Int) : Int := if top.legalMoves.any top.flips then -c else c

namespace Level

theorem bounded_abs (h : Level setup top d c) : -valueLimit ≤ c ∧ c ≤ valueLimit :=
  ⟨h.bounded.1, Int.le_trans h.bounded.2 (by decide)⟩

theorem answers (h : Level setup top d c) (holds : Key → Int → Int → Prop) (flavour : Flavour)
    {m : Move} (hm : m ∈ top.legalMoves) :
    Answers holds (node setup flavour d) (top.after m) c :=
  (h.flat holds flavour m hm).answers h.bounded_abs

/-- The root gets its value as any other root does. -/
theorem rooted (h : Level setup top d c) :
    Rooted (fun _ _ e => e = levelValue top c) setup top d (fun _ => c) (levelValue top c) where
  undisturbed := h.undisturbed
  sound := h.sound
  unfinished := h.unfinished
  choice := h.choice
  bounded := by
    have hbounded := h.bounded_abs
    simp only [levelValue]
    split <;> omega
  only _ h := h
  tells _ _ := rfl
  answers flavour m hm := h.answers _ flavour hm
  best := by
    simp only [levelValue, Position.worth]
    -- passing the turn turns a value that is not positive round
    split
    · rename_i hflips
      obtain ⟨m, hm, hflip⟩ := List.any_eq_true.1 hflips
      exact ⟨m, hm, if_pos hflip⟩
    · rename_i hstay
      obtain ⟨m, hm⟩ := List.exists_mem_of_length_pos (Nat.lt_of_lt_of_le Nat.zero_lt_two h.choice)
      refine ⟨m, hm, if_neg fun hflip => hstay ?_⟩
      exact List.any_eq_true.2 ⟨m, hm, hflip⟩
  greatest m hm := by
    have hsign := h.bounded.2
    simp only [levelValue, Position.worth]
    cases hflip : top.flips m with
    | true =>
        have hany : top.legalMoves.any top.flips = true := List.any_eq_true.2 ⟨m, hm, hflip⟩
        rw [if_pos rfl, if_pos hany]
    | false =>
        rw [if_neg Bool.false_ne_true]
        split <;> omega

end Level

/-! ## A window above the value -/

/-- A move of the root is played, its node searched, and the move taken back. -/
theorem Level.step (h : Level setup top d c) (flavour : Flavour) {m : Move}
    (hm : m ∈ top.legalMoves) (hw : w.position = top) (hready : Ready holds w) (i : Nat)
    (alpha beta : Int) :
    let search := child flavour (node setup flavour d) i (top.flips m)
    ∃ played, w.play? m = some (top.flips m, played) ∧
      (search alpha beta played).1 = (if top.flips m then -c else c) ∧
      Returned holds w (search alpha beta played).2.takeBack := by
  subst hw
  obtain ⟨happly, _, hvariant⟩ := h.sound.after_spec h.unfinished hm
  obtain ⟨hvalue, hreturned⟩ := flat_child (h.flat holds flavour m hm) flavour i
    (w.position.flips m) alpha beta
    { w with position := w.position.after m, saved := w.position.state :: w.saved } rfl
    ⟨hready.going, hready.table⟩
  exact ⟨_, play?_eq happly, hvalue, hreturned.of_played hvariant⟩

/-- When no move passes the turn, the loop over the moves of the root finds the one value there is,
even in a window above it. -/
theorem Level.tryMoves_eq (h : Level setup top d c) (hstay : top.legalMoves.any top.flips = false)
    (flavour : Flavour) {alpha beta : Int} (hlow : c ≤ alpha) {rest : List RankedMove}
    (hrest : ∀ r ∈ rest, r.move ∈ top.legalMoves) {p : Progress} (halpha : p.alpha = alpha)
    (hp : p.best = c ∨ (p.best = -infinite ∧ rest ≠ [])) (hw : w.position = top)
    (hready : Ready holds w) (i : Nat) :
    let searched := tryMoves (child flavour (node setup flavour d)) beta i rest p w
    searched.1.best = c ∧ Returned holds w searched.2 := by
  -- over the moves left: once one has been tried, the best value is the one value there is
  induction rest generalizing p w i with
  | nil => exact ⟨hp.resolve_right fun hnone => hnone.2 rfl, hready.returned⟩
  | cons r rest ih =>
      have hm := hrest r List.mem_cons_self
      obtain ⟨played, hplay, hvalue, hback⟩ := h.step flavour hm hw hready i p.alpha beta
      have hkeeps : top.flips r.move = false := by
        simpa using List.any_eq_false.1 hstay r.move hm
      rw [tryMoves, hplay]
      simp only
      generalize child flavour (node setup flavour d) i (top.flips r.move) p.alpha beta played =
        answer at hvalue hback ⊢
      rw [hkeeps, if_neg Bool.false_ne_true] at hvalue
      -- the value never raises alpha, so the loop runs through all moves
      have hnext : ∀ p' : Progress, p'.alpha = alpha → p'.best = c →
          let searched := tryMoves (child flavour (node setup flavour d)) beta (i + 1) rest p'
            answer.2.takeBack
          searched.1.best = c ∧ Returned holds w searched.2 := by
        intro p' halpha' hbest'
        obtain ⟨hbest, hreturned⟩ := ih (fun r' hr' => hrest r' (List.mem_cons_of_mem r hr'))
          halpha' (Or.inl hbest') (hback.position.trans hw) hback.toReady (i + 1)
        exact ⟨hbest, hback.trans hreturned⟩
      rw [if_neg (by simp [hback.going]), hvalue, halpha]
      split
      · rw [if_neg (Int.not_lt.2 hlow)]
        exact hnext _ rfl rfl
      · rename_i hworse
        refine hnext _ halpha (hp.resolve_right ?_)
        rintro ⟨hnone, -⟩
        rw [hnone] at hworse
        exact hworse (neg_infinite_lt h.bounded.1)

section

variable (h : Level setup top d c) (hlimit : isPastMoveLimit top = true) (hw : w.position = top)
  (hready : Ready holds w)
include h hlimit hw hready

/-- Past a limit on quiet moves the root is not searched for less than the value of a draw. -/
theorem Level.root_of_le (flavour : Flavour) (known : Move) (alpha : Int) {beta : Int}
    (hbeta : beta ≤ 0) :
    root setup flavour ((d + 1 : Nat) : Int) known alpha beta w =
      (⟨0, known, false⟩, w.visit setup) := by
  subst hw
  have hposition : (w.visit setup).position = w.position := rfl
  simp only [root]
  simp only [Int.toNat_natCast, hready.isAtEnd_visit h.undisturbed, h.unfinished, hposition,
    hlimit, hbeta, Bool.false_eq_true, if_false, if_true, and_self]

/-- Searched for more than the value of a draw, the root has the one value there is, although that
lies below the window. -/
theorem Level.root_of_pos (hempty : w.table.stored = {})
    (hstay : top.legalMoves.any top.flips = false) (flavour : Flavour) (known : Move) (alpha : Int)
    {beta : Int} (hbeta : 0 < beta) :
    let answer := root setup flavour ((d + 1 : Nat) : Int) known alpha beta w
    answer.1.value = c ∧ answer.1.unique = false ∧ answer.2.stopped = false := by
  subst hw
  have hvisit := hready.visit h.undisturbed
  have hposition : (w.visit setup).position = w.position := rfl
  have htable : (w.visit setup).table = w.table := rfl
  simp only [root]
  simp only [Int.toNat_natCast, hready.isAtEnd_visit h.undisturbed, h.unfinished, hposition, htable,
    hlimit, Int.not_le.2 hbeta, Table.probe_of_stored_eq_empty hempty, Option.filter,
    Bool.false_eq_true, if_false, if_true, and_false]
  have hlegal := fun r => @Position.mem_legalMoves_of_ranked w.position .none r
  obtain ⟨first, second, rest, hranked⟩ := Position.exists_ranked_pair h.choice .none
  rw [hranked] at hlegal
  obtain ⟨hbest, hreturned⟩ := @Level.tryMoves_eq _ _ _ _ _ _ h hstay flavour 0 beta h.bounded.2
    (first :: second :: rest) hlegal { alpha := 0 } rfl (Or.inr ⟨rfl, List.cons_ne_nil _ _⟩)
    hposition hvisit.toReady 0
  simp only [hranked]
  generalize tryMoves (child flavour (node setup flavour d)) beta 0 (first :: second :: rest)
    { alpha := 0 } (w.visit setup) = searched at hbest hreturned ⊢
  -- the search has not been stopped, so the node is finished as usual
  simp only [finishNode]
  rw [if_neg (by simp [hreturned.going])]
  exact ⟨hbest, trivial, hreturned.going⟩

end

/-! ## All algorithms -/

/-- MTD(f) finds nothing below the value of a draw in its first pass, and the one value there is in
its second, which ends the search. -/
theorem Level.closeIn_eq (h : Level setup top d c) (hlimit : isPastMoveLimit top = true)
    (hstay : top.legalMoves.any top.flips = false) (hw : w.position = top) (hready : Ready holds w)
    (hempty : w.table.stored = {}) :
    (closeIn setup ((d + 1 : Nat) : Int) 0 w).1.value = c := by
  have hvisit := hready.visit h.undisturbed
  have hfirst := h.root_of_le hlimit hw hready .plain .none (0 - passWidth) (Int.le_refl 0)
  obtain ⟨hvalue, hchoice, hgoing⟩ := h.root_of_pos hlimit (hvisit.position.trans hw)
    hvisit.toReady hempty hstay .plain .none (0 + passWidth - passWidth)
    (by decide : 0 < 0 + passWidth)
  generalize hsecond : root setup .plain ((d + 1 : Nat) : Int) .none (0 + passWidth - passWidth)
    (0 + passWidth) (w.visit setup) = second at hvalue hchoice hgoing
  have hlow := h.bounded.2
  have hbeta : 0 < passBeta 0 ⟨0, .none, false⟩ := by decide
  have hclose : closeIn setup ((d + 1 : Nat) : Int) 0 w =
      passes setup ((d + 1 : Nat) : Int) (63 + 1) (-infinite) infinite ⟨0, .none, false⟩ w := rfl
  -- the first pass is below every bound and comes back at once
  have hpasses : passes setup ((d + 1 : Nat) : Int) (63 + 1) (-infinite) infinite
      ⟨0, .none, false⟩ w =
      passes setup ((d + 1 : Nat) : Int) (62 + 1) 0 infinite ⟨0, .none, false⟩ (w.visit setup) :=
    (passes_of_going (by decide : ¬infinite ≤ -infinite) hfirst rfl hvisit.going 63).trans
      (if_neg (by decide : ¬(0 : Int) < 0))
  -- the second one meets the value, and the bounds close
  rw [hclose, hpasses, passes_of_going (by decide : ¬infinite ≤ 0) hsecond hchoice hgoing, hvalue,
    if_pos (Int.lt_of_le_of_lt hlow hbeta), passes_of_met hlow]
  exact hvalue

/-- Above nodes of one value all algorithms find the value of the root. -/
theorem Level.search_value (h : Level setup top d c) (hw : w.position = top)
    (hgoing : w.stopped = false) (hempty : w.table.stored = {}) (a : Algorithm) (threads : Nat) :
    (a.search threads setup ((d + 1 : Nat) : Int) none w).1.value = levelValue top c := by
  have hready : Ready (fun _ _ e => e = levelValue top c) w :=
    ⟨hgoing, Table.truthful_of_stored_eq_empty hempty⟩
  simp only [Algorithm.search, Algorithm.searchAmong]
  split
  · rename_i hsplits
    simp only [Algorithm.splitsRoot, Bool.and_eq_true, decide_eq_true_eq] at hsplits
    exact (h.rooted.split_solved a.flavour hsplits.2 hw hready).value
  · by_cases hbelow : isPastMoveLimit top = true ∧ top.legalMoves.any top.flips = false
    -- the value lies below that of a draw, which the search takes to be at hand
    · obtain ⟨hlimit, hstay⟩ := hbelow
      have hlevel : levelValue top c = c := by rw [levelValue, hstay, if_neg Bool.false_ne_true]
      have hfull := fun flavour => h.root_of_pos hlimit hw hready hempty hstay flavour .none
        (-infinite) (by decide : 0 < infinite)
      rw [hlevel]
      cases a with
      | alphaBeta => exact (hfull .plain).1
      | pvs => exact (hfull .principal).1
      | mtdf => exact h.closeIn_eq hlimit hstay hw hready hempty
    · have hanswers := h.rooted.rootAnswers fun hlimit => by
        have hflips : top.legalMoves.any top.flips = true := by
          simpa [hlimit] using hbelow
        have hlow := h.bounded.2
        rw [levelValue, if_pos hflips]
        omega
      cases a with
      | alphaBeta => exact (hanswers.fullWindow_solved .plain .none hw hready).value
      | pvs => exact (hanswers.fullWindow_solved .principal .none hw hready).value
      | mtdf => exact (hanswers.closeIn_solved h.rooted.bounded 0 hw hready).value

/-! ## Draws after every move -/

/-- Every legal move draws the game at once. -/
def DrawnNext (pos : Position) : Prop :=
  ∀ m ∈ pos.legalMoves, (pos.after m).isOver = true ∧ (pos.after m).state.winner = .draw

/-- Every legal move repeats an earlier position of the game. -/
def RepeatedNext (setup : Setup) (pos : Position) : Prop :=
  ∀ m ∈ pos.legalMoves, Repeated setup (pos.after m)

section

variable (hsound : pos.Sound) (hover : pos.isOver = false) (hchoice : 2 ≤ pos.legalMoves.length)
  (hsetup : setup.Undisturbed)
include hsound hover hchoice hsetup

theorem DrawnNext.level (h : DrawnNext pos) (hneutral : setup.evaluator.Neutral)
    (hd : (d : Int) ≤ depthLimit) : Level setup pos d (-(d : Int)) where
  undisturbed := hsetup
  sound := hsound
  unfinished := hover
  choice := hchoice
  bounded := by
    have hlimit : depthLimit ≤ valueLimit := by decide
    omega
  flat _ flavour m hm :=
    flat_node_of_over hsetup (h m hm).1 (hneutral _ (h m hm).1 (h m hm).2) flavour d

theorem RepeatedNext.level (h : RepeatedNext setup pos) (d : Nat) : Level setup pos (d + 1) 0 where
  undisturbed := hsetup
  sound := hsound
  unfinished := hover
  choice := hchoice
  bounded := by decide
  flat _ flavour m hm := flat_node_of_repeated hsetup (h m hm) flavour d

end

/-- In a reachable position with a choice of moves, all algorithms value draws after every move as
follows. Moves that end the game as a draw make the position worth the depth less one if one of them
passes the turn, and otherwise minus that: the draws are worth nothing to the evaluator, but the
search takes them for losses of the side to move after them. Moves that repeat earlier positions
make it worth nothing, given some depth beyond them. -/
theorem reachable_search_value_drawn {rule : Rule} (h : Position.Reachable rule pos)
    (hover : pos.isOver = false) (hchoice : 2 ≤ pos.legalMoves.length)
    (hsetup : setup.Undisturbed) (hneutral : setup.evaluator.Neutral) {depth : Nat}
    (hpositive : 1 ≤ depth) (hdeepest : (depth : Int) ≤ depthLimit) (hw : w.position = pos)
    (hgoing : w.stopped = false) (hempty : w.table.stored = {}) (a : Algorithm) (threads : Nat) :
    (DrawnNext pos → (a.search threads setup depth none w).1.value =
        if pos.legalMoves.any pos.flips then (depth : Int) - 1 else 1 - depth) ∧
      (RepeatedNext setup pos → 2 ≤ depth → (a.search threads setup depth none w).1.value = 0) := by
  constructor
  · intro hdrawn
    -- the move of the root takes one ply, and the rest is left at the drawn positions
    obtain ⟨d, rfl⟩ := Nat.exists_eq_add_of_le' hpositive
    have hlevel : Level setup pos d (-(d : Int)) :=
      hdrawn.level h.sound hover hchoice hsetup hneutral (by omega)
    rw [hlevel.search_value hw hgoing hempty a threads, levelValue]
    split <;> omega
  · intro hrepeated hdepth
    -- at the horizon nobody looks for repetitions, but the positions after a move lie above it
    obtain ⟨d, rfl⟩ := Nat.exists_eq_add_of_le' hdepth
    have hlevel := hrepeated.level h.sound hover hchoice hsetup d
    have hvalue := hlevel.search_value hw hgoing hempty a threads
    rw [levelValue, Int.neg_zero, ite_self] at hvalue
    exact hvalue

/-- Three men a side, none of which shares a line with another of its side, so that White can close
no mill. -/
def apart (rule : Rule) : Position :=
  (Position.ofVariant (.ofRule rule)).performAll
    [.apply (.place 8), .apply (.place 24), .apply (.place 12), .apply (.place 26),
      .apply (.place 17), .apply (.place 29)]

/-- Where the first slide reaches the limit on quiet moves, every move passes the turn and draws. -/
theorem drawnNext_apart : Position.Reachable Engine.hasty (apart Engine.hasty) ∧
    (apart Engine.hasty).isOver = false ∧ 2 ≤ (apart Engine.hasty).legalMoves.length ∧
    DrawnNext (apart Engine.hasty) ∧
    (apart Engine.hasty).legalMoves.any (apart Engine.hasty).flips = true := by
  have hspec : (apart Engine.hasty).isOver = false ∧
      2 ≤ (apart Engine.hasty).legalMoves.length ∧
      (∀ m ∈ (apart Engine.hasty).legalMoves, ((apart Engine.hasty).after m).isOver = true ∧
        ((apart Engine.hasty).after m).state.winner = .draw) ∧
      (apart Engine.hasty).legalMoves.any (apart Engine.hasty).flips = true := by
    decide +kernel
  exact ⟨(Position.Reachable.begin rfl).performAll _, hspec⟩

/-- The game has been at every position that a legal move leads to. -/
def Setup.revisiting (pos : Position) : Setup where
  evaluator := .handcrafted true
  gameKeys := pos.legalMoves.map fun m => (pos.after m).state.key

/-- With room for more slides the game goes on after every move. -/
theorem repeatedNext_apart : Position.Reachable { pieceCount := 3 } (apart { pieceCount := 3 }) ∧
    (apart { pieceCount := 3 }).isOver = false ∧
    2 ≤ (apart { pieceCount := 3 }).legalMoves.length ∧
    RepeatedNext (.revisiting (apart { pieceCount := 3 })) (apart { pieceCount := 3 }) := by
  have hspec : (apart { pieceCount := 3 }).isOver = false ∧
      2 ≤ (apart { pieceCount := 3 }).legalMoves.length ∧
      ∀ m ∈ (apart { pieceCount := 3 }).legalMoves,
        ((apart { pieceCount := 3 }).after m).isOver = false ∧
        ((apart { pieceCount := 3 }).after m).rule.threefoldRepetition = true ∧
        ((apart { pieceCount := 3 }).after m).state.phase = .moving := by
    decide +kernel
  obtain ⟨hover, hchoice, hnext⟩ := hspec
  refine ⟨(Position.Reachable.begin rfl).performAll _, hover, hchoice, fun m hm => ?_⟩
  obtain ⟨hgoing, hrule, hmoving⟩ := hnext m hm
  exact ⟨hgoing, hrule, hmoving, List.mem_map.2 ⟨m, hm, rfl⟩⟩

/-- To depth five, MTD(f) values a position at four in which every move draws by the limit on quiet
moves, and principal variation search finds nothing where every move repeats an earlier position. -/
theorem reachable_search_value_drawn_apart :
    (DrawnNext (apart Engine.hasty) ∧
      (Algorithm.mtdf.search 1 { evaluator := .handcrafted true } 5 none
        { position := apart Engine.hasty, table := .new 4 256 }).1.value = 4) ∧
    RepeatedNext (.revisiting (apart { pieceCount := 3 })) (apart { pieceCount := 3 }) ∧
      (Algorithm.pvs.search 1 (.revisiting (apart { pieceCount := 3 })) 5 none
        { position := apart { pieceCount := 3 }, table := .new 4 256 }).1.value = 0 := by
  have hneutral := Evaluator.neutral_handcrafted true
  constructor
  · obtain ⟨hreach, hover, hchoice, hdrawn, hflips⟩ := drawnNext_apart
    have hvalue := (reachable_search_value_drawn hreach hover hchoice
      (⟨rfl, rfl⟩ : Setup.Undisturbed { evaluator := .handcrafted true }) hneutral
      (by decide : 1 ≤ 5) (by decide)
      (rfl : Walk.position { position := apart Engine.hasty, table := .new 4 256 } = _) rfl rfl
      .mtdf 1).1 hdrawn
    rw [if_pos hflips] at hvalue
    exact ⟨hdrawn, hvalue⟩
  · obtain ⟨hreach, hover, hchoice, hrepeated⟩ := repeatedNext_apart
    have hvalue := (reachable_search_value_drawn hreach hover hchoice
      (⟨rfl, rfl⟩ : (Setup.revisiting (apart { pieceCount := 3 })).Undisturbed) hneutral
      (by decide : 1 ≤ 5) (by decide) (rfl : Walk.position
        { position := apart { pieceCount := 3 }, table := .new 4 256 } = _) rfl rfl .pvs 1).2
      hrepeated (by decide)
    exact ⟨hrepeated, hvalue⟩

/-- It is not so that a search values every position at nothing in which every legal move draws the
game. -/
theorem not_forall_search_value_drawn_eq_zero :
    ¬ ∀ (rule : Rule) (pos : Position), Position.Reachable rule pos → pos.isOver = false →
      2 ≤ pos.legalMoves.length → DrawnNext pos →
      ∀ (a : Algorithm) (depth : Nat), 1 ≤ depth → (depth : Int) ≤ depthLimit →
        (a.search 1 { evaluator := .handcrafted true } depth none
          { position := pos, table := .new 4 256 }).1.value = 0 := by
  intro hall
  obtain ⟨hreach, hover, hchoice, hdrawn, hflips⟩ := drawnNext_apart
  have hnothing := hall _ _ hreach hover hchoice hdrawn .alphaBeta 2 (by decide) (by decide)
  -- one ply of depth is left at the drawn positions
  have hlevel : Level { evaluator := .handcrafted true } (apart Engine.hasty) 1
      (-((1 : Nat) : Int)) :=
    hdrawn.level hreach.sound hover hchoice ⟨rfl, rfl⟩ (Evaluator.neutral_handcrafted true)
      (by decide)
  have hvalue := hlevel.search_value
    (rfl : Walk.position { position := apart Engine.hasty, table := .new 4 256 } = _) rfl rfl
    .alphaBeta 1
  rw [levelValue, if_pos hflips] at hvalue
  rw [hvalue] at hnothing
  exact absurd hnothing (by decide)

end Search

end Morris
