import Morris.Proofs.Search.Horizon

/-!
# Nodes

The searches of single positions answer with the values of the tree: those at the horizon go on with
the owed removals (`soft_horizon`), and alpha-beta below the root finds `negamax` (`answers_node`),
in both flavours. The table has to tell the values of the unfinished nodes and no others
(`Search.Telling`). It does so if it is trusted with them (`Search.Valued`) and two nodes of equal
keys never have different ones (`Search.Searchable`).

Nothing but the tree decides the value of a node as long as no repetition is a draw and a position
that is not over has not passed a limit on quiet moves (`Search.Regular`).
-/

set_option autoImplicit false

namespace Morris

namespace Search

/-! ## Positions without draws inside the tree -/

/-- A sound position under a rule by which neither a repetition nor a shorter limit for endgames
draws. -/
structure Regular (pos : Position) : Prop extends pos.Sound where
  repetition : pos.rule.threefoldRepetition = false
  limits : pos.rule.endgameMoveLimit = pos.rule.moveLimit

theorem Regular.of_inTree {top pos : Position} {depth d : Nat} (h : Regular top)
    (hpos : InTree top depth pos d) : Regular pos := by
  obtain ⟨hsound, hvariant⟩ := hpos.sound h.toSound
  have hrule : pos.rule = top.rule := congrArg Variant.rule hvariant
  exact ⟨hsound, hrule ▸ h.repetition, hrule ▸ h.limits⟩

/-- A game that goes on has not passed the limit on quiet moves. -/
theorem Regular.isPastMoveLimit_eq {pos : Position} (h : Regular pos) (hover : pos.isOver = false) :
    isPastMoveLimit pos = false := by
  have hquiet := h.quiet_le hover
  simp [isPastMoveLimit, Position.isEndgameLimitReached, h.limits, hquiet]

theorem Regular.isRepetition_eq {setup : Setup} {w : Walk} (h : Regular w.position) :
    isRepetition setup w = false := by
  simp [isRepetition, h.repetition]

/-! ## Past the horizon -/

variable {holds : Key → Int → Int → Prop} {setup : Setup} {pos : Position} {w w' : Walk}

theorem Setup.Steady.within_limit (h : setup.Steady) (pos : Position) :
    -valueLimit ≤ setup.evaluator.value pos ∧ setup.evaluator.value pos ≤ valueLimit := by
  have hbounded := h.bounded pos
  have hmate : Position.mate ≤ valueLimit := by decide
  omega

theorem Setup.Steady.negamax_within (h : setup.Steady) {d : Nat} (hd : (d : Int) ≤ depthLimit)
    (pos : Position) : -valueLimit ≤ negamax setup d pos ∧ negamax setup d pos ≤ valueLimit := by
  have hbounded := negamax_bounded h.bounded d pos
  simp only [valueLimit]
  omega

theorem Returned.evaluate (h : Returned holds w w') (hsetup : setup.Steady) (alpha beta : Int) :
    Answer holds alpha beta (setup.evaluator.value w.position) w (w'.evaluate setup) := by
  have hreturned := h.trans (h.toReady.evaluate hsetup.undisturbed)
  rw [← h.position]
  exact hreturned.answer alpha beta (hsetup.within_limit w'.position)

theorem Returned.static (h : Returned holds w w') (hsetup : setup.Steady) {d : Nat}
    (hd : (d : Int) ≤ depthLimit) (alpha beta : Int) :
    Answer holds alpha beta (biased (setup.evaluator.value w.position) d) w
      (staticValue setup d w') := by
  have hreturned := h.trans (h.toReady.evaluate hsetup.undisturbed)
  have hbounded := @biased_bounded _ _ d (hsetup.bounded w'.position)
  rw [← h.position]
  apply hreturned.answer alpha beta
  simp only [valueLimit]
  omega

/-- Searches of the children of a sound position that goes on. -/
theorem children_of_answers (h : pos.Sound) (hover : pos.isOver = false)
    {value : Position → Int} {child : Nat → Bool → Searcher}
    (hanswers : ∀ m ∈ pos.legalMoves, ∀ i flips, Answers holds (child i flips) (pos.after m)
      (if flips then -value (pos.after m) else value (pos.after m))) :
    Children holds child pos (pos.worth value) where
  accepted m hm := (h.after_spec hover hm).1
  variant m hm := (h.after_spec hover hm).2.2
  proper m hm := h.isProper_of_mem_legalMoves (by simpa [Position.isOver] using hover) hm
  answers m hm i := hanswers m hm i (pos.flips m)

/-- The loop over the ranked moves of a position finds the greatest value of a legal move. -/
theorem ranked_found {value : Move → Int} {child : Nat → Bool → Searcher} {alpha beta exact : Int}
    (h : Children holds child pos value) (hbest : ∃ m ∈ pos.legalMoves, value m = exact)
    (hmax : ∀ m ∈ pos.legalMoves, value m ≤ exact) (hinside : alpha < beta)
    (hexact : -valueLimit ≤ exact) (hpos : w.position = pos) (hready : Ready holds w)
    (remembered : Move) :
    let searched := tryMoves child beta 0 (pos.rankedMoves remembered) { alpha := alpha } w
    Found alpha beta exact searched.1 ∧ Returned holds w searched.2 := by
  obtain ⟨m, hm, heq⟩ := hbest
  obtain ⟨r, hr, rfl⟩ := Position.exists_ranked hm remembered
  exact tryMoves_found h hmax hexact (fun r' hr' => Position.mem_legalMoves_of_ranked hr')
    (.start hinside ⟨r, hr, heq⟩) hpos hready 0

/-- A soft search answers. -/
theorem Soft.answers {search : Searcher} {exact : Int} (h : Soft valueLimit search pos exact) :
    Answers holds search pos exact := by
  intro alpha beta w hinside hpos hready
  obtain ⟨v, hwithin, hbounded, hgives⟩ := h.gives hinside
  obtain ⟨rfl, hback⟩ := hgives w ⟨hpos, hready.going⟩
  exact ⟨hwithin, hbounded, hready.of_unmoved hback⟩

/-- At the horizon the search goes on with the owed removals. -/
theorem soft_horizon (hsetup : setup.Steady) (hsound : pos.Sound) :
    Soft valueLimit (horizon setup 0) pos (negamax setup 0 pos) := by
  have hend : ∀ w, Standing pos w → (w.visit setup).isAtEnd = pos.isOver :=
    fun _ hw => hw.isAtEnd_visit hsetup.undisturbed
  rw [negamax]
  split
  · rename_i hover
    have hstatic : Soft valueLimit (fun _ _ w => staticValue setup 0 w) pos
        (biased (setup.evaluator.value pos) 0) := by
      have hbounded := @biased_bounded _ _ 0 (hsetup.within_limit pos)
      refine soft_of_constant (by simpa using hbounded) fun alpha beta w hw => ⟨?_, ?_⟩
      · simp only [staticValue, Walk.evaluate, hw.position]
      · exact hsetup.undisturbed.evaluate hw.going
    exact hstatic.of_visit hsetup.undisturbed fun alpha beta w hw => by
      simp only [horizon, hend w hw, hover, if_true]
  · rename_i hgoing
    exact (soft_quiet hsetup.undisturbed (by decide) hsetup.within_limit hsound
      setup.quietDepth).of_visit hsetup.undisturbed fun alpha beta w hw => by
        simp only [horizon, hend w hw]
        rw [if_neg hgoing]

theorem answers_horizon (hsetup : setup.Steady) (hsound : pos.Sound) :
    Answers holds (horizon setup 0) pos (negamax setup 0 pos) :=
  (soft_horizon hsetup hsound).answers

/-! ## Below the root -/

/-- A tree that a search can value: nothing stops the search, draws play no part, the depth is
allowed, and the table tells the values of the unfinished nodes. Of such a node, entries of the
depth that is left there tell no other value, and deeper ones may tell this value. -/
structure Telling (holds : Key → Int → Int → Prop) (setup : Setup) (top : Position) (depth : Nat) :
    Prop where
  steady : setup.Steady
  regular : Regular top
  deepest : (depth : Int) ≤ depthLimit
  only : ∀ {pos d exact}, InTree top depth pos (d + 1) → pos.isOver = false →
    holds pos.state.key (d + 1) exact → exact = negamax setup (d + 1) pos
  tells : ∀ {pos d} stored, InTree top depth pos (d + 1) → pos.isOver = false →
    (d : Int) + 1 ≤ stored → holds pos.state.key stored (negamax setup (d + 1) pos)

/-- The values that the table may tell, whatever the depth of its entries: those of the unfinished
nodes of a tree with some depth left, by their keys. -/
def Valued (setup : Setup) (top : Position) (depth : Nat) (key : Key) (_ exact : Int) : Prop :=
  ∃ pos d, InTree top depth pos (d + 1) ∧ pos.isOver = false ∧ pos.state.key = key ∧
    negamax setup (d + 1) pos = exact

/-- A tree that a search can value because its keys tell the values apart. -/
structure Searchable (setup : Setup) (top : Position) (depth : Nat) : Prop where
  steady : setup.Steady
  regular : Regular top
  deepest : (depth : Int) ≤ depthLimit
  keys : KeysTell setup top depth

variable {top : Position} {depth d : Nat}

theorem Searchable.telling (h : Searchable setup top depth) :
    Telling (Valued setup top depth) setup top depth where
  steady := h.steady
  regular := h.regular
  deepest := h.deepest
  only := by
    rintro pos d _ hpos hover ⟨next, e, hnext, hnextOver, hkey, rfl⟩
    exact h.keys next pos e d hnext hpos hnextOver hover hkey
  tells _ hpos hover _ := ⟨_, _, hpos, hover, rfl, rfl⟩

/-- A node whose moves have been searched within a narrowed window is recorded, and its value is an
answer within the window asked for. -/
theorem finishNode_answer {alpha beta alpha' beta' exact left : Int} {p : Progress}
    (htold : ∀ e, holds pos.state.key left e → e = exact)
    (hnarrow : Narrowed alpha beta exact alpha' beta') (hfound : Found alpha' beta' exact p)
    (hw : w.position = pos) (hreturned : Returned holds w w') :
    Answer holds alpha beta exact w (finishNode setup left alpha' beta' p w') := by
  rw [finishNode, if_neg (by simp [hreturned.going])]
  refine ⟨hfound.toWithin.of_narrowed hnarrow, hfound.bounded, ⟨hreturned.going, ?_⟩,
    hreturned.position, hreturned.saved⟩
  apply hreturned.table.save hfound.proper hfound.bounded
  -- whatever the table may tell of this key is what has been found within the window
  intro e he
  rw [hreturned.position, hw] at he
  rw [htold e he]
  exact hfound.toWithin.bound_holds hnarrow.inside

/-- Searching the moves of a position within a narrowed window answers within the window asked for
with the greatest of their values. -/
theorem searched_answer (setup : Setup) {value : Move → Int} {child : Nat → Bool → Searcher}
    {alpha beta alpha' beta' exact left : Int} (h : Children holds child pos value)
    (hbest : ∃ m ∈ pos.legalMoves, value m = exact)
    (hmax : ∀ m ∈ pos.legalMoves, value m ≤ exact)
    (htold : ∀ e, holds pos.state.key left e → e = exact) (hexact : -valueLimit ≤ exact)
    (hnarrow : Narrowed alpha beta exact alpha' beta') (hw : w.position = pos)
    (hready : Ready holds w) (remembered : Move) :
    let searched := tryMoves child beta' 0 (pos.rankedMoves remembered) { alpha := alpha' } w
    Answer holds alpha beta exact w
      (finishNode setup left alpha' beta' searched.1 searched.2) := by
  obtain ⟨hfound, hreturned⟩ :=
    ranked_found h hbest hmax hnarrow.inside hexact hw hready remembered
  exact finishNode_answer htold hnarrow hfound hw hreturned

/-- The children of a node of the tree, searched with the depth that is left. -/
theorem children_of_inTree (h : Telling holds setup top depth)
    (hpos : InTree top depth pos (d + 1)) (hover : pos.isOver = false) (flavour : Flavour)
    {search : Searcher}
    (hsearch : ∀ next, InTree top depth next d →
      Answers holds search next (negamax setup d next)) :
    Children holds (child flavour search) pos (pos.worth (negamax setup d)) :=
  children_of_answers (h.regular.of_inTree hpos).toSound hover fun _ hm i flips =>
    answers_child (hsearch _ (.child hpos hover hm)) flavour i flips

/-- Taking the value of a node from the table or searching its moves answers within the window, if
the table tells no other value of the node and its children are searched for theirs. -/
theorem expand_answer (hsetup : setup.Steady) (hover : pos.isOver = false)
    (hd : ((d + 1 : Nat) : Int) ≤ depthLimit) {child : Nat → Bool → Searcher}
    (hchildren : Children holds child pos (pos.worth (negamax setup d)))
    (honly : ∀ e, holds pos.state.key (d + 1) e → e = negamax setup (d + 1) pos)
    (htells : ∀ stored, (d : Int) + 1 ≤ stored →
      holds pos.state.key stored (negamax setup (d + 1) pos))
    {alpha beta : Int} (hinside : alpha < beta) (hw : w.position = pos) (hready : Ready holds w) :
    Answer holds alpha beta (negamax setup (d + 1) pos) w
      (expand setup child ((d : Int) + 1) alpha beta w) := by
  subst hw
  have hprobe := hready.table.probe htells hinside
  simp only [expand]
  generalize w.table.probe w.position.state.key ((d : Int) + 1) alpha beta = probe at hprobe ⊢
  split
  · rename_i v hv
    obtain ⟨hwithin, hbounded, _⟩ := hprobe.settles v hv
    exact ⟨hwithin, hbounded, hready.returned⟩
  · rename_i hnone
    rw [Position.isEmpty_rankedMoves]
    split
    -- without a legal move the value is the static one
    · rename_i hempty
      rw [negamax_of_going hover, Position.bestWorth_of_stuck (List.isEmpty_iff.1 hempty)]
      exact @Returned.static _ _ _ _ hready.returned hsetup (d + 1) hd alpha beta
    · rename_i hmoves
      have hne : w.position.legalMoves ≠ [] := by simpa using hmoves
      obtain ⟨hbest, hmax⟩ := @Position.bestWorth_spec w.position (negamax setup d) hne
        (biased (setup.evaluator.value w.position) ((d + 1 : Nat) : Int))
      rw [← negamax_of_going hover] at hbest hmax
      exact searched_answer setup hchildren hbest hmax honly
        (hsetup.negamax_within hd w.position).1 (hprobe.leaves hnone) rfl hready probe.move

/-- With a draw at hand, alpha is raised to the value of a draw, or lowered to it. -/
theorem Answer.of_drawn {alpha beta exact : Int} {answer : Int × Walk}
    (h : Answer holds 0 beta exact w answer) (hexact : 0 ≤ exact) :
    Answer holds alpha beta exact w answer := by
  refine ⟨⟨h.above, fun _ => ?_⟩, h.bounded, h.returned⟩
  rcases Int.lt_or_le 0 answer.1 with hpos | hneg
  · exact h.below hpos
  · exact Int.le_trans hneg hexact

/-- A draw at hand is an answer within a window that it closes. -/
theorem Returned.drawn_answer {alpha beta exact : Int} (h : Returned holds w w')
    (hexact : 0 ≤ exact)
    (hclosed : beta ≤ 0) : Answer holds alpha beta exact w (0, w') :=
  have hbounded : -valueLimit ≤ 0 ∧ 0 ≤ valueLimit := by decide
  ⟨⟨fun hlt => absurd hlt (Int.not_lt.2 hclosed), fun _ => hexact⟩, hbounded, h⟩

/-- A repeated position is worth nothing at any depth, whether or not a limit on quiet moves closes
the window before. -/
theorem node_of_repetition (hend : (w.visit setup).isAtEnd = false)
    (hrepetition : isRepetition setup (w.visit setup) = true) (flavour : Flavour)
    (alpha beta : Int) : node setup flavour (d + 1) alpha beta w = (0, w.visit setup) := by
  simp only [node, hend, hrepetition, Bool.false_eq_true, if_false, if_true]
  by_cases hlimit : isPastMoveLimit (w.visit setup).position = true
  · simp only [hlimit, if_true, true_and]
    split <;> rfl
  · rw [if_neg fun hempty => hlimit hempty.1]

/-- The search of a node answers with its value if the game is over there, and also if the position
is no repetition, is worth no less than a draw past a limit on quiet moves, the table tells no other
value of it, and its children are searched for theirs. -/
theorem node_answer (hsetup : setup.Steady) (flavour : Flavour)
    (hd : ((d + 1 : Nat) : Int) ≤ depthLimit) {alpha beta : Int} (hinside : alpha < beta)
    (hw : w.position = pos) (hready : Ready holds w)
    (hnode : pos.isOver = false → isRepetition setup w = false ∧
      (isPastMoveLimit pos = true → 0 ≤ negamax setup (d + 1) pos) ∧
      (∀ e, holds pos.state.key (d + 1) e → e = negamax setup (d + 1) pos) ∧
      (∀ stored, (d : Int) + 1 ≤ stored →
        holds pos.state.key stored (negamax setup (d + 1) pos)) ∧
      Children holds (child flavour (node setup flavour d)) pos (pos.worth (negamax setup d))) :
    Answer holds alpha beta (negamax setup (d + 1) pos) w
      (node setup flavour (d + 1) alpha beta w) := by
  subst hw
  have hvisit := hready.visit hsetup.undisturbed
  have hposition : (w.visit setup).position = w.position := rfl
  have hsame : isRepetition setup (w.visit setup) = isRepetition setup w := rfl
  simp only [node]
  simp only [hready.isAtEnd_visit hsetup.undisturbed, hposition, hsame]
  split
  · rename_i hover
    rw [negamax, if_pos hover]
    exact @Returned.static _ _ _ _ hvisit hsetup (d + 1) hd alpha beta
  · rename_i hgoing
    have hover : w.position.isOver = false := by simpa using hgoing
    obtain ⟨hfresh, hdrawn, honly, htells, hchildren⟩ := hnode hover
    -- one fact for both ways into the moves: with the window as it is, and with alpha set to a draw
    have hexpand := fun {low : Int} (hlow : low < beta) =>
      (expand_answer hsetup hover hd hchildren honly htells hlow hposition
        hvisit.toReady).of_returned hvisit
    simp only [hfresh, Bool.false_eq_true, if_false]
    -- a draw at hand takes the place of alpha, and may close the window at once
    cases hlimit : isPastMoveLimit w.position with
    | false =>
        simp only [Bool.false_eq_true, false_and, if_false]
        exact hexpand hinside
    | true =>
        simp only [true_and, if_true]
        split
        · rename_i hclosed
          exact hvisit.drawn_answer (hdrawn hlimit) hclosed
        · rename_i hopen
          exact (hexpand (Int.not_le.1 hopen)).of_drawn (hdrawn hlimit)

/-- Alpha-beta below the root finds the value of its node, in either flavour. -/
theorem answers_node (h : Telling holds setup top depth) (flavour : Flavour)
    (hpos : InTree top depth pos d) :
    Answers holds (node setup flavour d) pos (negamax setup d pos) := by
  induction d generalizing pos with
  | zero => exact answers_horizon h.steady (h.regular.of_inTree hpos).toSound
  | succ d ih =>
      intro alpha beta w hinside hw hready
      have hregular := h.regular.of_inTree hpos
      have hle := hpos.le
      have hdeepest := h.deepest
      apply node_answer h.steady flavour (by omega) hinside hw hready
      intro hover
      refine ⟨(hw ▸ hregular).isRepetition_eq, ?_, fun _ => h.only hpos hover,
        fun stored => h.tells stored hpos hover,
        children_of_inTree h hpos hover flavour fun next hnext => ih hnext⟩
      rw [hregular.isPastMoveLimit_eq hover]
      nofun

end Search

end Morris
