import Morris.Proofs.Search.Algorithm
import Morris.Proofs.Search.Frame

/-!
# The values that searches answer with

A search of any position that a game can reach answers with a value that lies no further from zero
than the value of a won game and the depth searched together, wherever it is stopped, whatever
window or guess it is given and whatever the rules say of draws. Only a root with one legal move
gets a value of its own, which is out of reach of all others. Main statement:
`reachable_search_banded`.

What keeps the values within the bound is `Search.Confined`. A static value is raised by the depth
left, and turning a value round leaves it within. A value that is taken from the table may come from
a node with more depth left, so the bound is the same at all depths, and it is kept by all entries
of the table (`Search.Small`). The value that a node starts from, below all others, does not come
out of it: the first child that is searched to its end has a greater one, and a node that is stopped
before is valued statically (`Search.Tried`).
-/

set_option autoImplicit false

namespace Morris.Search

variable {setup : Setup} {limit depth : Int} {pos : Position} {search : Searcher} {w : Walk}

/-! ## Values within a bound -/

/-- A value between a bound and its opposite. -/
def Inside (limit v : Int) : Prop := -limit ≤ v ∧ v ≤ limit

theorem Inside.neg {v : Int} (h : Inside limit v) : Inside limit (-v) := by
  obtain ⟨hleast, hgreatest⟩ := h
  constructor <;> omega

/-- An entry whose value lies within the bound. -/
def Small (limit : Int) (e : Table.Entry) : Prop := Inside limit e.value

/-- An entry with another move has the same value. -/
theorem borrows_small (limit : Int) : Table.Borrows (Small limit) (Small limit) :=
  fun _ _ hold _ _ => hold

/-- An answer within the bound, after which the walk is back and the table has kept the bound. -/
structure Confined (limit : Int) (w : Walk) (answer : Int × Walk) : Prop extends
    Back (Small limit) w answer.2 where
  value : Inside limit answer.1

/-- A search that answers within the bound, wherever the table keeps it. -/
def Confines (limit : Int) (search : Searcher) (pos : Position) : Prop :=
  ∀ alpha beta w, w.position = pos → w.table.All (Small limit) →
    Confined limit w (search alpha beta w)

theorem Confined.after {w' : Walk} {answer : Int × Walk} (h : Confined limit w' answer)
    (hback : Back (Small limit) w w') : Confined limit w answer :=
  ⟨hback.trans h.toBack, h.value⟩

/-- The bound has room for all values of positions with up to some depth left. -/
structure Roomy (setup : Setup) (limit depth : Int) : Prop where
  plain : ∀ q, Inside limit (setup.evaluator.value q)
  biased : ∀ q d, 0 ≤ d → d ≤ depth → Inside limit (biased (setup.evaluator.value q) d)
  zero : 0 ≤ limit
  finite : limit < infinite

/-- What the evaluator says is within the limit. -/
theorem Roomy.evaluate (h : Roomy setup limit depth) (w : Walk) :
    Confined limit w (w.evaluate setup) :=
  ⟨(framing_back setup (Small limit)).evaluate w, h.plain w.position⟩

/-- A static value, biased by the depth, is within the limit. -/
theorem Roomy.staticValue (h : Roomy setup limit depth) {d : Int} (hd : 0 ≤ d) (hle : d ≤ depth)
    (w : Walk) : Confined limit w (staticValue setup d w) :=
  ⟨(framing_back setup (Small limit)).staticValue d w, h.biased w.position d hd hle⟩

/-- A draw is answered without any search. -/
theorem Roomy.drawn (h : Roomy setup limit depth) (w : Walk) : Confined limit w (0, w) :=
  ⟨.refl w, Int.neg_nonpos_of_nonneg h.zero, h.zero⟩

theorem back_visit (setup : Setup) (limit : Int) (w : Walk) :
    Back (Small limit) w (w.visit setup) :=
  (framing_back setup (Small limit)).visit w

/-! ## Children -/

/-- The value of a child, negated if the turn flips, is within the limit. -/
theorem Confines.childValue (h : Confines limit search pos) (flips : Bool) :
    Confines limit (childValue search flips) pos := by
  intro alpha beta w hw ht
  cases flips with
  | false => exact h alpha beta w hw ht
  | true =>
      have hanswer := h (-beta) (-alpha) w hw ht
      exact ⟨hanswer.toBack, hanswer.value.neg⟩

theorem Confines.scout {flips : Bool} (h : Confines limit (Search.childValue search flips) pos) :
    Confines limit (scout search flips) pos := by
  intro alpha beta w hw ht
  have hnarrow := h alpha (alpha + scoutWidth) w hw ht
  simp only [Search.scout]
  -- the second search finds the table as the first one has left it
  generalize Search.childValue search flips alpha (alpha + scoutWidth) w = first at hnarrow ⊢
  split
  · have hagain := h alpha beta first.2 (hnarrow.position.trans hw) (hnarrow.entries ht)
    exact hagain.after hnarrow.toBack
  · exact hnarrow

/-- Every way to search a child keeps within the limit. -/
theorem Confines.child (h : Confines limit search pos) (flavour : Flavour) (index : Nat)
    (flips : Bool) : Confines limit (child flavour search index flips) pos := by
  simp only [Search.child]
  split
  · exact (h.childValue flips).scout
  · exact h.childValue flips

/-- What the loop over the moves of a node leaves. Its best value is within the bound as soon as one
child has been searched, which is so unless the search is stopped. -/
structure Tried (limit : Int) (rest : List RankedMove) (w : Walk) (found : Progress × Walk) : Prop
    extends Back (Small limit) w found.2 where
  best : found.1.best = -infinite ∨ Inside limit found.1.best
  complete : found.2.stopped = false → rest ≠ [] → Inside limit found.1.best

/-- Trying moves keeps the best value within the limit, unless the search is stopped before the
first is done. -/
theorem tryMoves_tried (hsound : pos.Sound) (hover : pos.isOver = false)
    (hfinite : limit < infinite) {child : Nat → Bool → Searcher}
    (hchild : ∀ i flips, ∀ m ∈ pos.legalMoves, Confines limit (child i flips) (pos.after m))
    (beta : Int) (rest : List RankedMove) (hrest : ∀ r ∈ rest, r.move ∈ pos.legalMoves)
    (p : Progress) (hp : p.best = -infinite ∨ Inside limit p.best) (hw : w.position = pos)
    (ht : w.table.All (Small limit)) (i : Nat) :
    Tried limit rest w (tryMoves child beta i rest p w) := by
  induction rest generalizing p w i with
  | nil => exact ⟨.refl w, hp, fun _ hne => absurd rfl hne⟩
  | cons r rest ih =>
      have hm := hrest r List.mem_cons_self
      have hplay := play?_eq (w := w) (m := r.move) (by
        rw [hw]
        exact (hsound.after_spec hover hm).1)
      have hafter : (w.position.after r.move) = pos.after r.move := by rw [hw]
      rw [tryMoves, hplay]
      simp only
      -- from here on only what the search of the child has answered matters
      obtain ⟨answer, hsearch, hvalue, hback⟩ : ∃ answer,
          child i (w.position.flips r.move) p.alpha beta { w with
            position := w.position.after r.move
            saved := w.position.state :: w.saved } = answer ∧
          Inside limit answer.1 ∧ Back (Small limit) w answer.2.takeBack := by
        have hanswer := hchild i (w.position.flips r.move) r.move hm p.alpha beta { w with
          position := w.position.after r.move
          saved := w.position.state :: w.saved } hafter ht
        exact ⟨_, rfl, hanswer.value, Back.of_play hplay hanswer.toBack⟩
      rw [hsearch]
      -- the loop goes on with a best value that is no less than that of the child
      have hnext : ∀ p' : Progress, Inside limit p'.best →
          Tried limit (r :: rest) w (tryMoves child beta (i + 1) rest p' answer.2.takeBack) := by
        intro p' hp'
        have htried := ih (fun r hr => hrest r (List.mem_cons_of_mem _ hr)) p' (Or.inr hp')
          (hback.position.trans hw) (hback.entries ht) (i + 1)
        refine ⟨hback.trans htried.toBack, htried.best, fun _ _ => ?_⟩
        refine htried.best.resolve_left fun heq => ?_
        have hle := (tryMoves_picked child beta rest p' answer.2.takeBack (i + 1)).best_le
        have hleast := hp'.1
        omega
      split
      · rename_i hstopped
        refine ⟨hback, hp, fun hgoing => ?_⟩
        cases hgoing.symm.trans hstopped
      · split
        · split
          · split
            · exact ⟨hback, Or.inr hvalue, fun _ _ => hvalue⟩
            · exact hnext _ hvalue
          · exact hnext _ hvalue
        · -- a best value above that of the child is no longer the one that the node started from
          rename_i hworse
          refine hnext p (hp.resolve_left fun heq => ?_)
          have hleast := hvalue.1
          omega

/-! ## Nodes -/

/-- A quiet search keeps within the limit. -/
theorem Roomy.quiet (h : Roomy setup limit depth) (d : Nat) (hsound : pos.Sound) :
    Confines limit (quiet setup d) pos := by
  -- on the depth of the quiet search, for every position at once
  induction d generalizing pos with
  | zero => exact fun _ _ w _ _ => (h.evaluate _).after (back_visit setup limit w)
  | succ d ih =>
      intro alpha beta w hw ht
      have hvisit := back_visit setup limit w
      have hstatic := (h.evaluate (w.visit setup)).after hvisit
      simp only [Search.quiet]
      split
      · exact hstatic
      · rename_i hgoes
        split
        · exact hstatic
        · have hover : pos.isOver = false := by
            rw [Bool.or_eq_true, not_or] at hgoes
            rw [← hw]
            exact unfinished_of_visit hgoes.1
          have hchild : ∀ (i : Nat) (flips : Bool), ∀ m ∈ pos.legalMoves,
              Confines limit (Search.childValue (Search.quiet setup d) flips) (pos.after m) :=
            fun i flips m hm => (ih (hsound.after_spec hover hm).2.1).childValue flips
          have htried := tryMoves_tried (w := w.visit setup) hsound hover h.finite hchild beta
            (pos.rankedMoves .none) (fun _ hr => Position.mem_legalMoves_of_ranked hr)
            { alpha := alpha } (Or.inl rfl) hw ht 0
          -- no move was searched, or the best value is one of a child
          rw [show (w.visit setup).position = pos from hw]
          split
          · exact (h.evaluate _).after (hvisit.trans htried.toBack)
          · rename_i hne
            exact ⟨hvisit.trans htried.toBack, htried.best.resolve_left hne⟩

theorem Roomy.horizon (h : Roomy setup limit depth) {d : Int} (hd : 0 ≤ d) (hle : d ≤ depth)
    (hsound : pos.Sound) : Confines limit (horizon setup d) pos := by
  intro alpha beta w hw ht
  have hvisit := back_visit setup limit w
  simp only [Search.horizon]
  split
  · exact (h.staticValue hd hle _).after hvisit
  · exact (h.quiet setup.quietDepth hsound alpha beta (w.visit setup) hw ht).after hvisit

/-- A node that is done records a value within the limit. -/
theorem Roomy.finishNode (h : Roomy setup limit depth) {d : Int} (hd : 0 ≤ d) (hle : d ≤ depth)
    (alpha beta : Int) {p : Progress} (hbest : p.best = -infinite ∨ Inside limit p.best)
    (hcomplete : w.stopped = false → Inside limit p.best) :
    Confined limit w (finishNode setup d alpha beta p w) := by
  simp only [Search.finishNode]
  split
  · -- stopped: the best value so far is taken only if a child has raised it
    split
    · exact h.staticValue hd hle w
    · rename_i hne
      exact ⟨.refl w, hbest.resolve_left hne⟩
  · rename_i hgoing
    have hinside := hcomplete (eq_false_of_ne_true hgoing)
    exact ⟨⟨rfl, rfl, fun ht => ht.save (fun _ he => he) (borrows_small limit) hinside⟩, hinside⟩

/-- The moves of a node that has some are searched, and the node gets its value. -/
theorem Roomy.tryMoves (h : Roomy setup limit depth) {d : Int} (hd : 0 ≤ d) (hle : d ≤ depth)
    (hsound : pos.Sound) (hover : pos.isOver = false) {child : Nat → Bool → Searcher}
    (hchild : ∀ i flips, ∀ m ∈ pos.legalMoves, Confines limit (child i flips) (pos.after m))
    {remembered : Move} (hne : pos.rankedMoves remembered ≠ []) (alpha beta : Int)
    (hw : w.position = pos) (ht : w.table.All (Small limit)) :
    let found := tryMoves child beta 0 (pos.rankedMoves remembered) { alpha := alpha } w
    Confined limit w (Search.finishNode setup d alpha beta found.1 found.2) := by
  have htried := tryMoves_tried hsound hover h.finite hchild beta (pos.rankedMoves remembered)
    (fun _ hr => Position.mem_legalMoves_of_ranked hr) { alpha := alpha } (Or.inl rfl) hw ht 0
  have hfinished := h.finishNode hd hle alpha beta htried.best
    fun hgoing => htried.complete hgoing hne
  exact hfinished.after htried.toBack

theorem Roomy.expand (h : Roomy setup limit depth) {d : Int} (hd : 0 ≤ d) (hle : d ≤ depth)
    (hsound : pos.Sound) (hover : pos.isOver = false) {child : Nat → Bool → Searcher}
    (hchild : ∀ i flips, ∀ m ∈ pos.legalMoves, Confines limit (child i flips) (pos.after m)) :
    Confines limit (expand setup child d) pos := by
  intro alpha beta w hw ht
  simp only [Search.expand]
  split
  · rename_i v hcutoff
    obtain ⟨e, he, -, -, rfl, -⟩ := ht.of_cutoff hcutoff
    exact ⟨.refl w, he⟩
  · rw [hw]
    split
    · exact h.staticValue hd hle w
    · rename_i hfull
      exact h.tryMoves hd hle hsound hover hchild (fun hnil => hfull (by rw [hnil]; rfl)) _ _ hw ht

theorem confines_children {flavour : Flavour} {d : Nat}
    (hnode : ∀ q : Position, q.Sound → Confines limit (node setup flavour d) q)
    (hsound : pos.Sound) (hover : pos.isOver = false) (i : Nat) (flips : Bool) :
    ∀ m ∈ pos.legalMoves, Confines limit (child flavour (node setup flavour d) i flips)
      (pos.after m) :=
  fun _ hm => (hnode _ (hsound.after_spec hover hm).2.1).child flavour i flips

/-- By induction on the depth left: the children have less of it, and the bound is the same. -/
theorem Roomy.node (h : Roomy setup limit depth) (flavour : Flavour) {d : Nat}
    (hd : (d : Int) ≤ depth) (hsound : pos.Sound) :
    Confines limit (node setup flavour d) pos := by
  induction d generalizing pos with
  | zero => exact h.horizon (Int.le_refl 0) hd hsound
  | succ d ih =>
      intro alpha beta w hw ht
      have hvisit := back_visit setup limit w
      have hpositive : (0 : Int) ≤ (d : Int) + 1 := by omega
      have hle : (d : Int) + 1 ≤ depth := hd
      simp only [Search.node]
      split
      · exact (h.staticValue hpositive hle _).after hvisit
      · rename_i hgoes
        have hover : pos.isOver = false := by
          rw [← hw]
          exact unfinished_of_visit hgoes
        have hchild := confines_children (fun q hq => ih (by omega) hq) hsound hover
        generalize hlow :
          (if isPastMoveLimit (w.visit setup).position = true then 0 else alpha) = low
        split
        · -- past the limit the value is zero, whatever alpha was
          rename_i hdrawn
          rw [if_pos hdrawn.1] at hlow
          rw [← hlow]
          exact (h.drawn _).after hvisit
        · split
          · exact (h.drawn _).after hvisit
          · have hexpanded := h.expand hpositive hle hsound hover hchild
            exact (hexpanded low beta (w.visit setup) hw ht).after hvisit

/-! ## The root -/

/-- A result that is either that of the only legal move or within the bound. -/
def Banded (limit : Int) (r : Result) : Prop :=
  (r.value = uniqueValue ∧ r.unique = true) ∨ (Inside limit r.value ∧ r.unique = false)

/-- Such a result, after which the walk is back and the table has kept the bound. -/
structure Rated (limit : Int) (w : Walk) (answer : Result × Walk) : Prop extends
    Back (Small limit) w answer.2 where
  banded : Banded limit answer.1

theorem Confined.rated {answer : Int × Walk} (h : Confined limit w answer) (move : Move) :
    Rated limit w (⟨answer.1, move, false⟩, answer.2) :=
  ⟨h.toBack, Or.inr ⟨h.value, rfl⟩⟩

theorem Rated.after {w' : Walk} {answer : Result × Walk} (h : Rated limit w' answer)
    (hback : Back (Small limit) w w') : Rated limit w answer :=
  ⟨hback.trans h.toBack, h.banded⟩

/-- The result of the root is within the limit. -/
theorem Roomy.root (h : Roomy setup limit depth) (hpositive : 1 ≤ depth) (hsound : pos.Sound)
    (flavour : Flavour) (known : Move) (alpha beta : Int) (hw : w.position = pos)
    (ht : w.table.All (Small limit)) :
    Rated limit w (root setup flavour depth known alpha beta w) := by
  have hvisit := back_visit setup limit w
  have hstatic := (h.staticValue (by omega) (Int.le_refl depth) (w.visit setup)).after hvisit
  simp only [Search.root]
  split
  · omega
  · rename_i d hd
    split
    · exact hstatic.rated known
    · rename_i hgoes
      have hover : pos.isOver = false := by
        rw [← hw]
        exact unfinished_of_visit hgoes
      have hchild := confines_children
        (fun q hq => h.node flavour (show (d : Int) ≤ depth by omega) hq) hsound hover
      -- past the limit on quiet moves the window of the root is raised to zero
      generalize hlow :
        (if isPastMoveLimit (w.visit setup).position = true then 0 else alpha) = low
      split
      · rename_i hdrawn
        rw [if_pos hdrawn.1] at hlow
        rw [← hlow]
        exact ((h.drawn _).after hvisit).rated known
      · split
        · rename_i v hcutoff
          obtain ⟨e, he, -, -, rfl, -⟩ :=
            (show (w.visit setup).table.All (Small limit) from ht).of_cutoff
              (Option.filter_eq_some_iff.1 hcutoff).1
          exact ⟨hvisit, Or.inr ⟨he, rfl⟩⟩
        · split
          · exact hstatic.rated known
          · exact ⟨hvisit, Or.inl ⟨rfl, rfl⟩⟩
          · rename_i hsome _
            subst hw
            refine Confined.rated (Confined.after ?_ hvisit) _
            exact h.tryMoves (by omega) (Int.le_refl depth) hsound hover hchild hsome _ _ rfl ht

/-! ## Algorithms -/

theorem Roomy.aspiration (h : Roomy setup limit depth) (hpositive : 1 ≤ depth)
    (hsound : pos.Sound) (guess : Int) (hw : w.position = pos) (ht : w.table.All (Small limit)) :
    Rated limit w (aspiration setup depth guess w) := by
  have hfirst := h.root hpositive hsound .principal .none
    (max (guess - aspirationWidth) (-infinite)) (min (guess + aspirationWidth) infinite) hw ht
  simp only [Search.aspiration]
  split
  · refine Rated.after ?_ hfirst.toBack
    exact h.root hpositive hsound .principal _ (-infinite) infinite (hfirst.position.trans hw)
      (hfirst.entries ht)
  · exact hfirst

/-- Passes answer with the result of the last one that is made, if one is made at all. -/
theorem Roomy.passes (h : Roomy setup limit depth) (hpositive : 1 ≤ depth) (hsound : pos.Sound)
    (fuel : Nat) {lower upper : Int} {last : Result}
    (hlast : Banded limit last ∨ (fuel ≠ 0 ∧ lower < upper)) (hw : w.position = pos)
    (ht : w.table.All (Small limit)) :
    Rated limit w (passes setup depth fuel lower upper last w) := by
  -- the guess may lie out of bounds, but it is answered only if no pass is made, and the first one
  -- always is
  induction fuel generalizing lower upper last w with
  | zero => exact ⟨.refl w, hlast.resolve_right fun hfuel => hfuel.1 rfl⟩
  | succ fuel ih =>
      simp only [Search.passes]
      split
      · rename_i hmet
        exact ⟨.refl w, hlast.resolve_right fun hgoes => by omega⟩
      · generalize (if last.value = lower then last.value + passWidth else last.value) = beta
        have hpass := h.root hpositive hsound .plain last.move (beta - passWidth) beta hw ht
        have hnext : ∀ lower upper, Rated limit w
            (Search.passes setup depth fuel lower upper
              (Search.root setup .plain depth last.move (beta - passWidth) beta w).1
              (Search.root setup .plain depth last.move (beta - passWidth) beta w).2) :=
          fun lower upper => (ih (Or.inl hpass.banded) (hpass.position.trans hw)
            (hpass.entries ht)).after hpass.toBack
        split
        · exact hpass
        · split
          · exact hnext lower _
          · exact hnext _ upper

/-- The result of every algorithm is within the limit. -/
theorem Roomy.rated (h : Roomy setup limit depth) (hpositive : 1 ≤ depth) (hsound : pos.Sound)
    (a : Algorithm) (guess : Option Int) (hw : w.position = pos) (ht : w.table.All (Small limit)) :
    Rated limit w (a.search 1 setup depth guess w) := by
  have hsingle : a.splitsRoot 1 = false := by cases a <;> rfl
  simp only [Algorithm.search, Algorithm.searchAmong, hsingle, Bool.false_eq_true, if_false]
  split
  · exact h.root hpositive hsound .plain .none (-infinite) infinite hw ht
  · exact h.root hpositive hsound .principal .none (-infinite) infinite hw ht
  · exact h.aspiration hpositive hsound _ hw ht
  · exact h.passes hpositive hsound passLimit (Or.inr ⟨by decide, by decide⟩) hw ht

/-- The value of a won game and the depth searched leave room for all values of a search. -/
theorem roomy_mate (hvalue : ∀ q, -Position.mate ≤ setup.evaluator.value q ∧
      setup.evaluator.value q ≤ Position.mate)
    (hpositive : 1 ≤ depth) (hdeepest : depth ≤ depthLimit) :
    Roomy setup (Position.mate + depth) depth := by
  have hmate : Position.mate = 80 := rfl
  have hlimit : depthLimit = 40 := rfl
  have hinfinite : infinite = 125 := rfl
  constructor
  case plain =>
    intro q
    have hq := hvalue q
    constructor <;> omega
  case biased =>
    intro q d hd hle
    have hq := hvalue q
    rw [Search.biased]
    constructor <;> split <;> omega
  case zero => omega
  case finite => omega

/-- Searches stay within their values. From any position that a game can reach, to any depth, with
any guess of the value and any keys of earlier positions of the game, whatever node or evaluation
stops the search and whether or not it has been stopped already, each algorithm answers with the
value that marks the only legal move, or with one no further from zero than a won game and the depth
together; and the result says which. So neither is taken for the other, and neither is the value
below or above all others.

A stop comes at a visit or at an evaluation (`Walk.visit`, `Walk.evaluate`). A search also looks at
the flag after a child and at the end of a node, and may find it raised only there. It then drops
the value of the child, and answers with the best value of the children before or, if there is none,
with the static value; or it leaves out a second search of the same moves. Either value is within
the bound that all values of children and all static values have, so the answer is as well. -/
theorem reachable_search_banded {rule : Rule} (h : Position.Reachable rule pos)
    (hvalue : ∀ q, -Position.mate ≤ setup.evaluator.value q ∧
      setup.evaluator.value q ≤ Position.mate)
    (hpositive : 1 ≤ depth) (hdeepest : depth ≤ depthLimit) (hw : w.position = pos)
    (hempty : w.table.stored = {}) (a : Algorithm) (guess : Option Int) :
    let r := (a.search 1 setup depth guess w).1
    ((r.value = uniqueValue ∧ r.unique = true) ∨
        (-(Position.mate + depth) ≤ r.value ∧ r.value ≤ Position.mate + depth ∧
          r.unique = false)) ∧
      (r.unique = true ↔ r.value = uniqueValue) ∧ r.value ≠ infinite ∧ r.value ≠ -infinite := by
  intro r
  have hunique : uniqueValue = 121 := rfl
  have hmate : Position.mate = 80 := rfl
  have hlimit : depthLimit = 40 := rfl
  have hinfinite : infinite = 125 := rfl
  have hrated := (roomy_mate hvalue hpositive hdeepest).rated hpositive h.sound a guess hw
    (Table.all_of_stored_eq_empty hempty)
  have hbanded : Banded (Position.mate + depth) r := hrated.banded
  rcases hbanded with ⟨hvalue, hone⟩ | ⟨⟨hleast, hgreatest⟩, hmore⟩
  · exact ⟨Or.inl ⟨hvalue, hone⟩, ⟨fun _ => hvalue, fun _ => hone⟩, by omega, by omega⟩
  · refine ⟨Or.inr ⟨hleast, hgreatest, hmore⟩, ⟨fun hone => ?_, fun heq => ?_⟩, by omega, by omega⟩
    · cases hmore.symm.trans hone
    · omega

/-- The case of MTD(f) that starts from the least of all values and is stopped at the thirtieth
node. -/
theorem reachable_search_banded_stopped :
    Position.Reachable { threefoldRepetition := false } opening ∧
      let r := (Algorithm.mtdf.search 1 { evaluator := .byKey, stopAt := some 30 } 3
        (some (-infinite)) { position := opening, table := .new 4 256 }).1
      ((r.value = uniqueValue ∧ r.unique = true) ∨
          (-(Position.mate + 3) ≤ r.value ∧ r.value ≤ Position.mate + 3 ∧ r.unique = false)) ∧
        (r.unique = true ↔ r.value = uniqueValue) ∧ r.value ≠ infinite ∧ r.value ≠ -infinite := by
  have hreach : Position.Reachable { threefoldRepetition := false } opening := .begin rfl
  have hvalue : ∀ q : Position, -Position.mate ≤ Evaluator.byKey.value q ∧
      Evaluator.byKey.value q ≤ Position.mate := Setup.steady_byKey.bounded
  refine ⟨hreach, ?_⟩
  exact reachable_search_banded hreach hvalue (by decide) (by decide) rfl rfl .mtdf
    (some (-infinite))

end Morris.Search
