import Morris.Proofs.Search.Walk

/-!
# Past the horizon

The search past the horizon plays nothing but owed removals and neither reads nor writes the table,
so what it gives back is a matter of the position and the window alone. `Search.Soft` says what that
is: the value itself if it lies inside the window, and otherwise something between the value and the
end of the window that the value is beyond. It also says that the other end of the window plays no
part then, which is more than the bound, and which a turned window needs: what lies above the window
of a child lies below that of its parent (`soft_childValue`).

The three cases stay apart in the loop over the moves (`tryMoves_low`, `tryMoves_high`,
`tryMoves_inside`). `soft_quiet` puts them together by induction on the depth, and `quiet_failSoft`
draws the conclusion for the positions of a game.
-/

set_option autoImplicit false

namespace Morris.Search

/-! ## What a search gives back -/

/-- A walk that stands in a position and goes on. -/
structure Standing (pos : Position) (w : Walk) : Prop where
  position : w.position = pos
  going : w.stopped = false

/-- A search within a window gives back a value and nothing else. -/
structure Gives (search : Searcher) (alpha beta : Int) (w : Walk) (v : Int) : Prop where
  value : (search alpha beta w).1 = v
  unmoved : Unmoved w (search alpha beta w).2

/-- Above a lower end of the window a search gives back the same value whatever the upper end is. -/
def FailsLow (search : Searcher) (pos : Position) (alpha v : Int) : Prop :=
  ∀ beta w, alpha < beta → Standing pos w → Gives search alpha beta w v

/-- Below an upper end of the window a search gives back the same value whatever the lower end is.
-/
def FailsHigh (search : Searcher) (pos : Position) (beta v : Int) : Prop :=
  ∀ alpha w, alpha < beta → Standing pos w → Gives search alpha beta w v

/-- A search that finds the value of a position if it lies inside the window. If it does not, what
is given back lies between the value and the end of the window that the value is beyond, and the
other end plays no part in it. -/
structure Soft (limit : Int) (search : Searcher) (pos : Position) (exact : Int) : Prop where
  bounded : -limit ≤ exact ∧ exact ≤ limit
  inside : ∀ alpha beta w, alpha < exact → exact < beta → Standing pos w →
    Gives search alpha beta w exact
  low : ∀ alpha, exact ≤ alpha → ∃ v, (exact ≤ v ∧ v ≤ alpha) ∧ v ≤ limit ∧
    FailsLow search pos alpha v
  high : ∀ beta, beta ≤ exact → ∃ v, (beta ≤ v ∧ v ≤ exact) ∧ -limit ≤ v ∧
    FailsHigh search pos beta v

section

variable {limit exact alpha beta v : Int} {search : Searcher} {pos : Position} {w w' w'' : Walk}

theorem Standing.of_unmoved (h : Standing pos w) (h' : Unmoved w w') : Standing pos w' :=
  ⟨h'.position.trans h.position, h'.going⟩

/-- Within any window a soft search says as much of the value as the window allows. -/
theorem Soft.gives (h : Soft limit search pos exact) (hinside : alpha < beta) :
    ∃ v, Within alpha beta v exact ∧ (-limit ≤ v ∧ v ≤ limit) ∧
      ∀ w, Standing pos w → Gives search alpha beta w v := by
  have hexact := h.bounded
  rcases Int.lt_or_le alpha exact with halpha | hlow
  · rcases Int.lt_or_le exact beta with hbeta | hhigh
    · exact ⟨exact, within_self alpha beta exact, hexact,
        fun w hw => h.inside alpha beta w halpha hbeta hw⟩
    · obtain ⟨v, hv, hleast, hgives⟩ := h.high beta hhigh
      exact ⟨v, ⟨fun hlt => by omega, fun _ => hv.2⟩, ⟨hleast, by omega⟩,
        fun w hw => hgives alpha w hinside hw⟩
  · obtain ⟨v, hv, hgreatest, hgives⟩ := h.low alpha hlow
    exact ⟨v, ⟨fun _ => hv.1, fun hlt => by omega⟩, ⟨by omega, hgreatest⟩,
      fun w hw => hgives beta w hinside hw⟩

/-- A search that gives back the same value whatever the window is. -/
theorem soft_of_constant (hexact : -limit ≤ exact ∧ exact ≤ limit)
    (h : ∀ alpha beta w, Standing pos w → Gives search alpha beta w exact) :
    Soft limit search pos exact where
  bounded := hexact
  inside alpha beta w _ _ hw := h alpha beta w hw
  low alpha hlow :=
    ⟨exact, ⟨Int.le_refl exact, hlow⟩, hexact.2, fun beta w _ hw => h alpha beta w hw⟩
  high beta hhigh :=
    ⟨exact, ⟨hhigh, Int.le_refl exact⟩, hexact.1, fun alpha w _ hw => h alpha beta w hw⟩

/-! ## Children -/

theorem gives_childValue (h : Gives search (-beta) (-alpha) w v) :
    Gives (childValue search true) alpha beta w (-v) :=
  ⟨congrArg Neg.neg h.value, h.unmoved⟩

theorem failsLow_childValue (h : FailsHigh search pos (-alpha) v) :
    FailsLow (childValue search true) pos alpha (-v) :=
  fun _ w hinside hw => gives_childValue (h _ w (Int.neg_lt_neg hinside) hw)

theorem failsHigh_childValue (h : FailsLow search pos (-beta) v) :
    FailsHigh (childValue search true) pos beta (-v) :=
  fun _ w hinside hw => gives_childValue (h _ w (Int.neg_lt_neg hinside) hw)

/-- Turning the window and the value round exchanges what lies below the window and what lies
above. -/
theorem soft_childValue (h : Soft limit search pos exact) (flips : Bool) :
    Soft limit (childValue search flips) pos (if flips then -exact else exact) := by
  cases flips with
  | false => exact ⟨h.bounded, h.inside, h.low, h.high⟩
  | true =>
      obtain ⟨hleast, hgreatest⟩ := h.bounded
      refine ⟨⟨Int.neg_le_neg hgreatest, Int.neg_le_of_neg_le hleast⟩, ?_, ?_, ?_⟩
      · intro alpha beta w halpha hbeta hw
        exact gives_childValue (h.inside _ _ w (Int.neg_lt_of_neg_lt hbeta)
          (Int.lt_neg_of_lt_neg halpha) hw)
      · intro alpha hlow
        obtain ⟨v, hv, hlimit, hgives⟩ := h.high (-alpha) (Int.neg_le_of_neg_le hlow)
        exact ⟨-v, ⟨Int.neg_le_neg hv.2, Int.neg_le_of_neg_le hv.1⟩,
          Int.neg_le_of_neg_le hlimit, failsLow_childValue hgives⟩
      · intro beta hhigh
        obtain ⟨v, hv, hlimit, hgives⟩ := h.low (-beta) (Int.le_neg_of_le_neg hhigh)
        exact ⟨-v, ⟨Int.le_neg_of_le_neg hv.2, Int.neg_le_neg hv.1⟩, Int.neg_le_neg hlimit,
          failsHigh_childValue hgives⟩

/-- A value that does not exceed alpha is not searched for again. -/
theorem failsLow_child {flips : Bool} (h : FailsLow (childValue search flips) pos alpha v)
    (hv : v ≤ alpha) (flavour : Flavour) (index : Nat) :
    FailsLow (child flavour search index flips) pos alpha v := by
  simp only [child]
  split
  · intro beta w _ hw
    have hnarrow := h (alpha + scoutWidth) w (Int.lt_add_of_pos_right alpha (by decide)) hw
    have hscout : scout search flips alpha beta w =
        childValue search flips alpha (alpha + scoutWidth) w := by
      simp only [scout]
      rw [if_neg (by rw [hnarrow.value]; omega)]
    exact ⟨hscout ▸ hnarrow.value, hscout ▸ hnarrow.unmoved⟩
  · exact h

/-! ## The loop over the moves -/

/-- A legal move is played, its child searched, and the move taken back. -/
theorem Gives.step {child : Searcher} {m : Move}
    (hplay : w.position.apply m = .ok (w.position.after m))
    (hvariant : (w.position.after m).variant = w.position.variant) (hgoing : w.stopped = false)
    (h : ∀ played, Standing (w.position.after m) played → Gives child alpha beta played v) :
    ∃ played, w.play? m = some (w.position.flips m, played) ∧
      (child alpha beta played).1 = v ∧ Unmoved w (child alpha beta played).2.takeBack := by
  obtain ⟨hvalue, hback⟩ := h
    { w with position := w.position.after m, saved := w.position.state :: w.saved } ⟨rfl, hgoing⟩
  refine ⟨_, play?_eq hplay, hvalue, ?_⟩
  rw [takeBack_eq ((congrArg Position.variant hback.position).trans hvariant) hback.saved]
  exact ⟨hback.going, rfl, rfl, hback.table⟩

end

section

variable {limit exact alpha beta : Int} {child : Nat → Bool → Searcher} {search : Bool → Searcher}
  {pos : Position} {value low : Move → Int} {rest : List RankedMove} {p : Progress} {w : Walk}

/-- Every legal move of a position is accepted and leads to a position of the same variant. -/
def Playable (pos : Position) : Prop :=
  ∀ m ∈ pos.legalMoves, pos.apply m = .ok (pos.after m) ∧ (pos.after m).variant = pos.variant

/-- What the loop does with the first of the moves, given the value of its child. -/
theorem tryMoves_cons (hplayable : Playable pos) {r : RankedMove} (hr : r.move ∈ pos.legalMoves)
    {v : Int} {i : Nat} (hw : Standing pos w)
    (h : ∀ played, Standing (pos.after r.move) played →
      Gives (child i (pos.flips r.move)) p.alpha beta played v) :
    ∃ w', Unmoved w w' ∧ tryMoves child beta i (r :: rest) p w =
      if p.best < v then
        if p.alpha < v then
          if beta ≤ v then ({ p with best := v, bestMove := r.move, raised := some r.move }, w')
          else tryMoves child beta (i + 1) rest ⟨v, v, r.move, some r.move⟩ w'
        else tryMoves child beta (i + 1) rest { p with best := v, bestMove := r.move } w'
      else tryMoves child beta (i + 1) rest p w' := by
  obtain ⟨rfl, hgoing⟩ := hw
  obtain ⟨haccepted, hvariant⟩ := hplayable r.move hr
  obtain ⟨played, hplay, hvalue, hback⟩ := Gives.step haccepted hvariant hgoing h
  refine ⟨_, hback, ?_⟩
  rw [tryMoves, hplay]
  simp only
  rw [if_neg (by simp [hback.going]), hvalue]

/-- As long as no value reaches the upper end of the window, the best value and alpha go up with the
greatest one. -/
theorem tryMoves_open (hplayable : Playable pos) {r : RankedMove} (hr : r.move ∈ pos.legalMoves)
    {v : Int} {i : Nat} (hw : Standing pos w)
    (h : ∀ played, Standing (pos.after r.move) played →
      Gives (child i (pos.flips r.move)) p.alpha beta played v)
    (hbelow : p.best = -infinite ∨ p.best ≤ p.alpha) (hleast : -infinite < v) (hopen : v < beta) :
    ∃ p' w', Unmoved w w' ∧ p'.best = max p.best v ∧ p'.alpha = max p.alpha v ∧
      tryMoves child beta i (r :: rest) p w = tryMoves child beta (i + 1) rest p' w' := by
  obtain ⟨w', hback, hstep⟩ := tryMoves_cons hplayable hr hw h
  rw [hstep, if_neg (Int.not_le.2 hopen)]
  split
  · rename_i hbetter
    split
    · rename_i hraises
      exact ⟨_, w', hback, (Int.max_eq_right (Int.le_of_lt hbetter)).symm,
        (Int.max_eq_right (Int.le_of_lt hraises)).symm, rfl⟩
    · rename_i hlow
      exact ⟨{ p with best := v, bestMove := r.move }, w', hback,
        (Int.max_eq_right (Int.le_of_lt hbetter)).symm,
        (Int.max_eq_left (Int.not_lt.1 hlow)).symm, rfl⟩
  · rename_i hworse
    have hlow : v ≤ p.alpha := by omega
    exact ⟨p, w', hback, (Int.max_eq_left (Int.not_lt.1 hworse)).symm,
      (Int.max_eq_left hlow).symm, rfl⟩

/-- With no value above alpha, the loop finds the greatest of what its children give back. -/
theorem tryMoves_low (hplayable : Playable pos) (hinside : alpha < beta)
    (hlow : ∀ m ∈ pos.legalMoves, (-infinite < low m ∧ low m ≤ alpha) ∧
      ∀ i, FailsLow (child i (pos.flips m)) (pos.after m) alpha (low m))
    (hrest : ∀ r ∈ rest, r.move ∈ pos.legalMoves) (halpha : p.alpha = alpha)
    (hbelow : p.best ≤ alpha) (hw : Standing pos w) (i : Nat) :
    (tryMoves child beta i rest p w).1.best = (rest.map fun r => low r.move).foldl max p.best ∧
      Unmoved w (tryMoves child beta i rest p w).2 := by
  induction rest generalizing p w i with
  | nil => exact ⟨rfl, hw.going, rfl, rfl, rfl⟩
  | cons r rest ih =>
      have hr := hrest r List.mem_cons_self
      obtain ⟨hbounded, hgives⟩ := hlow r.move hr
      have hchild : ∀ played, Standing (pos.after r.move) played →
          Gives (child i (pos.flips r.move)) p.alpha beta played (low r.move) := by
        rw [halpha]
        exact fun played => hgives i beta played hinside
      obtain ⟨p', w', hback, hbest, hraised, hstep⟩ := @tryMoves_open _ _ _ rest _ _ hplayable _ hr
        _ i hw hchild (by omega) hbounded.1 (by omega)
      obtain ⟨hrestBest, hback'⟩ := ih (fun r' hr' => hrest r' (List.mem_cons_of_mem r hr'))
        (by omega) (by omega) (hw.of_unmoved hback) (i + 1) (p := p')
      rw [hstep, hrestBest, hbest, List.map_cons, List.foldl_cons]
      exact ⟨rfl, hback.trans hback'⟩

section

variable (hplayable : Playable pos) (hlimit : limit < infinite)
  (hsoft : ∀ m ∈ pos.legalMoves, Soft limit (search (pos.flips m)) (pos.after m) (value m))
  (hrest : ∀ r ∈ rest, r.move ∈ pos.legalMoves)

include hplayable hlimit hsoft hrest

/-- If a move is worth as much as the upper end of the window, the first such move ends the loop. -/
theorem tryMoves_high (hhigh : ∃ r ∈ rest, beta ≤ value r.move) :
    ∃ v, (beta ≤ v ∧ ∃ r ∈ rest, v ≤ value r.move) ∧ -limit ≤ v ∧
      ∀ p w i, p.alpha < beta → (p.best = -infinite ∨ p.best ≤ p.alpha) → Standing pos w →
        (tryMoves (fun _ => search) beta i rest p w).1.best = v ∧
          Unmoved w (tryMoves (fun _ => search) beta i rest p w).2 := by
  induction rest with
  | nil => simp at hhigh
  | cons r rest ih =>
      have hr := hrest r List.mem_cons_self
      rcases Int.lt_or_le (value r.move) beta with hlow | hfirst
      -- a move of less value leaves the window open, and the first one of enough value comes later
      · have hleft : ∃ r' ∈ rest, beta ≤ value r'.move := by
          obtain ⟨r', hr', hle⟩ := hhigh
          rcases List.mem_cons.1 hr' with rfl | hmem
          · omega
          · exact ⟨r', hmem, hle⟩
        obtain ⟨v, ⟨hv, r', hr', hle⟩, hleast, hfound⟩ :=
          ih (fun r' hr' => hrest r' (List.mem_cons_of_mem r hr')) hleft
        refine ⟨v, ⟨hv, r', List.mem_cons_of_mem r hr', hle⟩, hleast, ?_⟩
        intro p w i hinside hbelow hw
        obtain ⟨u, hu, hbounded, hgives⟩ := (hsoft r.move hr).gives hinside
        have hopen : u < beta := by
          have hbelow := hu.below
          omega
        obtain ⟨p', w', hback, hbest, hraised, hstep⟩ := @tryMoves_open _ (fun _ => search) _ rest
          _ _ hplayable _ hr _ i hw hgives hbelow (by omega) hopen
        obtain ⟨hvalue, hback'⟩ := hfound p' w' (i + 1) (by omega) (by omega) (hw.of_unmoved hback)
        rw [hstep]
        exact ⟨hvalue, hback.trans hback'⟩
      · obtain ⟨v, hv, hleast, hgives⟩ := (hsoft r.move hr).high beta hfirst
        refine ⟨v, ⟨hv.1, r, List.mem_cons_self, hv.2⟩, hleast, ?_⟩
        intro p w i hinside hbelow hw
        obtain ⟨w', hback, hstep⟩ :=
          @tryMoves_cons _ (fun _ => search) _ rest _ _ hplayable _ hr _ i
          hw (fun played => hgives p.alpha played hinside)
        rw [hstep, if_pos (by omega), if_pos (by omega), if_pos hv.1]
        exact ⟨rfl, hback⟩

/-- If the greatest value of a move lies inside the window, the loop finds it. -/
theorem tryMoves_inside (hmax : ∀ r ∈ rest, value r.move ≤ exact) (hbeta : exact < beta)
    (hleft : p.best = exact ∨ ∃ r ∈ rest, value r.move = exact) (halpha : p.alpha ≤ exact)
    (hfound : p.alpha = exact → p.best = exact)
    (hbelow : p.best = -infinite ∨ p.best ≤ p.alpha) (hw : Standing pos w) (i : Nat) :
    (tryMoves (fun _ => search) beta i rest p w).1.best = exact ∧
      Unmoved w (tryMoves (fun _ => search) beta i rest p w).2 := by
  induction rest generalizing p w i with
  | nil =>
      have hbest : p.best = exact := by simpa using hleft
      exact ⟨hbest, hw.going, rfl, rfl, rfl⟩
  | cons r rest ih =>
      have hr := hrest r List.mem_cons_self
      have hle := hmax r List.mem_cons_self
      obtain ⟨u, hu, hbounded, hgives⟩ := (hsoft r.move hr).gives (show p.alpha < beta by omega)
      have hlow := hu.below
      have hhigh := hu.above
      obtain ⟨p', w', hback, hbest, hraised, hstep⟩ := @tryMoves_open _ (fun _ => search) _ rest _
        _ hplayable _ hr _ i hw hgives hbelow (by omega) (by omega)
      have hopen : p'.alpha ≤ exact ∧ (p'.alpha = exact → p'.best = exact) ∧
          (p'.best = -infinite ∨ p'.best ≤ p'.alpha) := by
        clear hleft
        omega
      have hleft' : p'.best = exact ∨ ∃ r' ∈ rest, value r'.move = exact := by
        rcases hleft with hdone | ⟨r', hr', heq⟩
        · left
          omega
        · rcases List.mem_cons.1 hr' with rfl | hmem
          -- the value of this move is no greater than what its child gives back
          · left
            omega
          · exact Or.inr ⟨r', hmem, heq⟩
      obtain ⟨hvalue, hback'⟩ := ih (fun r' hr' => hrest r' (List.mem_cons_of_mem r hr'))
        (fun r' hr' => hmax r' (List.mem_cons_of_mem r hr')) hleft' hopen.1 hopen.2.1 hopen.2.2
        (hw.of_unmoved hback) (i + 1)
      rw [hstep]
      exact ⟨hvalue, hback.trans hback'⟩

end

end

/-! ## Past the horizon -/

section

variable {setup : Setup} {limit : Int} {pos : Position} {d : Nat} {alpha beta v : Int} {w : Walk}

theorem Standing.visit (h : Standing pos w) (hsetup : setup.Undisturbed) :
    Standing pos (w.visit setup) :=
  h.of_unmoved (hsetup.visit h.going)

theorem Standing.isAtEnd_visit (h : Standing pos w) (hsetup : setup.Undisturbed) :
    (w.visit setup).isAtEnd = pos.isOver := by
  rw [hsetup.isAtEnd_visit h.going, h.position]

/-- A visit to a position that is only valued. -/
theorem Standing.gives_static {search : Searcher} (h : Standing pos w) (hsetup : setup.Undisturbed)
    (hsearch : search alpha beta w = (w.visit setup).evaluate setup) :
    Gives search alpha beta w (setup.evaluator.value pos) := by
  constructor
  · rw [hsearch]
    exact congrArg setup.evaluator.value h.position
  · rw [hsearch]
    exact (hsetup.visit h.going).trans (hsetup.evaluate (h.visit hsetup).going)

/-- Where removals are owed and can be played, the search past the horizon gives back what its loop
over them finds. -/
theorem gives_quiet (hsetup : setup.Undisturbed) (hw : Standing pos w) (hover : pos.isOver = false)
    (howed : pos.state.action = .remove) (hmoves : pos.legalMoves ≠ []) (hleast : -infinite < v)
    (hfound : ∀ w', Standing pos w' →
      (tryMoves (fun _ => childValue (quiet setup d)) beta 0 (pos.rankedMoves .none)
        { alpha := alpha } w').1.best = v ∧
      Unmoved w' (tryMoves (fun _ => childValue (quiet setup d)) beta 0 (pos.rankedMoves .none)
        { alpha := alpha } w').2) :
    Gives (quiet setup (d + 1)) alpha beta w v := by
  obtain ⟨hbest, hback⟩ := hfound (w.visit setup) (hw.visit hsetup)
  have hempty : pos.legalMoves.isEmpty = false := by simpa using hmoves
  have hquiet : quiet setup (d + 1) alpha beta w =
      (v, (tryMoves (fun _ => childValue (quiet setup d)) beta 0 (pos.rankedMoves .none)
        { alpha := alpha } (w.visit setup)).2) := by
    simp only [quiet]
    rw [hw.isAtEnd_visit hsetup, (hw.visit hsetup).position, Position.isEmpty_rankedMoves, hover,
      howed, hempty]
    simp only [Bool.false_or, bne_self_eq_false, Bool.false_eq_true, if_false]
    rw [hbest, if_neg (by omega)]
  exact ⟨congrArg Prod.fst hquiet, congrArg Prod.snd hquiet ▸ (hsetup.visit hw.going).trans hback⟩

theorem playable_of_sound (h : pos.Sound) (hover : pos.isOver = false) : Playable pos :=
  fun _ hm => ⟨(h.after_spec hover hm).1, (h.after_spec hover hm).2.2⟩

/-- The greatest of a start and the members of a list. -/
theorem foldl_max_spec (start : Int) (values : List Int) :
    (values.foldl max start = start ∨ values.foldl max start ∈ values) ∧
      start ≤ values.foldl max start ∧ ∀ v ∈ values, v ≤ values.foldl max start := by
  have hgreatest : (start :: values).max? = some (values.foldl max start) := List.max?_cons'
  obtain ⟨hmem, hmax⟩ := List.max?_eq_some_iff.1 hgreatest
  exact ⟨List.mem_cons.1 hmem, hmax start List.mem_cons_self,
    fun v hv => hmax v (List.mem_cons_of_mem start hv)⟩

/-- What soft searches of the children give back above a lower end that no value exceeds. -/
theorem exists_lows {search : Bool → Searcher} {value : Move → Int}
    (hsoft : ∀ m ∈ pos.legalMoves, Soft limit (search (pos.flips m)) (pos.after m) (value m))
    (hmax : ∀ m ∈ pos.legalMoves, value m ≤ alpha) :
    ∃ low : Move → Int, ∀ m ∈ pos.legalMoves, (value m ≤ low m ∧ low m ≤ alpha) ∧ low m ≤ limit ∧
      FailsLow (search (pos.flips m)) (pos.after m) alpha (low m) := by
  have hlow : ∀ m, ∃ v, m ∈ pos.legalMoves → (value m ≤ v ∧ v ≤ alpha) ∧ v ≤ limit ∧
      FailsLow (search (pos.flips m)) (pos.after m) alpha v := by
    intro m
    by_cases hm : m ∈ pos.legalMoves
    · obtain ⟨v, hv⟩ := (hsoft m hm).low alpha (hmax m hm)
      exact ⟨v, fun _ => hv⟩
    · exact ⟨0, fun h => absurd h hm⟩
  exact Classical.skolem.1 hlow

/-- The greatest of what the children give back lies between the greatest value and alpha. -/
theorem greatest_low_spec {low value : Move → Int} {exact : Int} {ranked : List RankedMove}
    (hlow : ∀ r ∈ ranked, (value r.move ≤ low r.move ∧ low r.move ≤ alpha) ∧ low r.move ≤ limit)
    (hbest : ∃ r ∈ ranked, value r.move = exact) (hexact : -infinite < exact) :
    (exact ≤ (ranked.map fun r => low r.move).foldl max (-infinite) ∧
      (ranked.map fun r => low r.move).foldl max (-infinite) ≤ alpha) ∧
      (ranked.map fun r => low r.move).foldl max (-infinite) ≤ limit := by
  obtain ⟨r, hr, heq⟩ := hbest
  obtain ⟨hmem, _, hall⟩ := foldl_max_spec (-infinite) (ranked.map fun r => low r.move)
  have hreached := Int.le_trans (hlow r hr).1.1 (hall _ (List.mem_map_of_mem hr))
  rcases hmem with hstart | hmem
  · omega
  · obtain ⟨r', hr', hv⟩ := List.mem_map.1 hmem
    have hbounds := hlow r' hr'
    omega

/-- The loop over soft searches of the children of a position is as soft as they are. -/
theorem soft_of_children {search : Bool → Searcher} {value : Move → Int} {exact : Int}
    {node : Searcher} (hplayable : Playable pos) (hlimit : limit < infinite)
    (hsoft : ∀ m ∈ pos.legalMoves, Soft limit (search (pos.flips m)) (pos.after m) (value m))
    (hexact : -limit ≤ exact ∧ exact ≤ limit) (hbest : ∃ m ∈ pos.legalMoves, value m = exact)
    (hmax : ∀ m ∈ pos.legalMoves, value m ≤ exact)
    (hnode : ∀ alpha beta w v, Standing pos w → -infinite < v →
      (∀ w', Standing pos w' →
        (tryMoves (fun _ => search) beta 0 (pos.rankedMoves .none) { alpha := alpha } w').1.best =
          v ∧
        Unmoved w' (tryMoves (fun _ => search) beta 0 (pos.rankedMoves .none)
          { alpha := alpha } w').2) →
      Gives node alpha beta w v) :
    Soft limit node pos exact := by
  have hrest : ∀ r ∈ pos.rankedMoves .none, r.move ∈ pos.legalMoves :=
    fun _ => Position.mem_legalMoves_of_ranked
  have hranked : ∃ r ∈ pos.rankedMoves .none, value r.move = exact := by
    obtain ⟨m, hm, heq⟩ := hbest
    obtain ⟨r, hr, rfl⟩ := Position.exists_ranked hm .none
    exact ⟨r, hr, heq⟩
  have hleast : -infinite < exact := by
    clear hranked
    omega
  refine ⟨hexact, ?_, ?_, ?_⟩
  · intro alpha beta w halpha hbeta hw
    -- exact in the window: some child reaches the exact value and none passes it
    apply hnode alpha beta w exact hw hleast
    intro w' hw'
    exact tryMoves_inside hplayable hlimit hsoft hrest (fun r hr => hmax _ (hrest r hr)) hbeta
      (.inr hranked) (Int.le_of_lt halpha) (fun h => absurd h (Int.ne_of_lt halpha)) (.inl rfl)
      hw' 0
  · intro alpha halpha
    -- below the window: every child fails low, and the greatest of their bounds is what comes back
    obtain ⟨low, hlow⟩ := exists_lows hsoft fun m hm => Int.le_trans (hmax m hm) halpha
    obtain ⟨hbetween, hgreatest⟩ := greatest_low_spec
      (fun r hr => ⟨(hlow r.move (hrest r hr)).1, (hlow r.move (hrest r hr)).2.1⟩) hranked hleast
    refine ⟨_, hbetween, hgreatest, ?_⟩
    intro beta w hinside hw
    apply hnode alpha beta w _ hw (Int.lt_of_lt_of_le hleast hbetween.1)
    intro w' hw'
    apply tryMoves_low hplayable hinside _ hrest rfl (by simp only; omega) hw' 0
    intro m hm
    obtain ⟨hbounds, _, hgives⟩ := hlow m hm
    have hvalue := (hsoft m hm).bounded
    exact ⟨⟨by omega, hbounds.2⟩, fun _ => hgives⟩
  · intro beta hhigh
    -- above the window: one child reaches beta, and the first to do so ends the walk
    have hreaches : ∃ r ∈ pos.rankedMoves .none, beta ≤ value r.move := by
      obtain ⟨r, hr, heq⟩ := hranked
      exact ⟨r, hr, heq ▸ hhigh⟩
    obtain ⟨v, ⟨hv, r, hr, hle⟩, hbounded, hgives⟩ :=
      tryMoves_high hplayable hlimit hsoft hrest hreaches
    have hvalue := (hsoft r.move (hrest r hr)).bounded
    refine ⟨v, ⟨hv, Int.le_trans hle (hmax _ (hrest r hr))⟩, hbounded, ?_⟩
    intro alpha w hinside hw
    exact hnode alpha beta w v hw (by omega) fun w' hw' =>
      hgives { alpha := alpha } w' 0 hinside (.inl rfl) hw'

/-- The search past the horizon is a soft search for the value of the owed removals. -/
theorem soft_quiet (hsetup : setup.Undisturbed) (hlimit : limit < infinite)
    (hvalue : ∀ pos, -limit ≤ setup.evaluator.value pos ∧ setup.evaluator.value pos ≤ limit)
    (hsound : pos.Sound) (d : Nat) :
    Soft limit (quiet setup d) pos (quietValue setup.evaluator.value d pos) := by
  induction d generalizing pos with
  | zero =>
      exact soft_of_constant (hvalue pos) fun _ _ _ hw => hw.gives_static hsetup rfl
  | succ d ih =>
      -- a quiet or a stuck position is evaluated as it stands, whatever the window
      have hstatic (hstill : (pos.isOver || pos.state.action != .remove) = true ∨
          pos.legalMoves = []) : ∀ alpha beta w, Standing pos w →
            Gives (quiet setup (d + 1)) alpha beta w (setup.evaluator.value pos) := by
        intro alpha beta w hw
        apply hw.gives_static hsetup
        simp only [quiet]
        rw [hw.isAtEnd_visit hsetup, (hw.visit hsetup).position, Position.isEmpty_rankedMoves]
        rcases hstill with hstill | hempty
        · rw [if_pos hstill]
        · simp [hempty]
      rw [quietValue]
      split
      · rename_i hstill
        exact soft_of_constant (hvalue pos) (hstatic (.inl hstill))
      · rename_i hgoing
        by_cases hmoves : pos.legalMoves = []
        · rw [Position.bestWorth_of_stuck hmoves]
          exact soft_of_constant (hvalue pos) (hstatic (.inr hmoves))
        · have hover : pos.isOver = false := by
            simp only [Bool.or_eq_true, not_or] at hgoing
            simpa using hgoing.1
          have howed : pos.state.action = .remove := by
            simp only [Bool.or_eq_true, not_or] at hgoing
            simpa using hgoing.2
          obtain ⟨hbest, hmax⟩ := @Position.bestWorth_spec pos (quietValue setup.evaluator.value d)
            hmoves (setup.evaluator.value pos)
          exact soft_of_children (playable_of_sound hsound hover) hlimit
            (fun m hm => soft_childValue (ih (hsound.after_spec hover hm).2.1) (pos.flips m))
            (Position.bestWorth_bounded (hvalue pos) (quietValue_bounded hvalue d)) hbest hmax
            fun _ _ _ _ hw hleast hfound =>
              gives_quiet hsetup hw hover howed hmoves hleast hfound

/-- A search that visits the position before a soft search is as soft. -/
theorem Soft.of_visit {search search' : Searcher} {exact : Int} (hsetup : setup.Undisturbed)
    (h : Soft limit search pos exact)
    (hvisit : ∀ alpha beta w, Standing pos w →
      search' alpha beta w = search alpha beta (w.visit setup)) :
    Soft limit search' pos exact := by
  have hgives : ∀ {alpha beta w v}, Standing pos w → Gives search alpha beta (w.visit setup) v →
      Gives search' alpha beta w v := by
    intro alpha beta w v hw hgives
    constructor
    · rw [hvisit alpha beta w hw]
      exact hgives.value
    · rw [hvisit alpha beta w hw]
      exact (hsetup.visit hw.going).trans hgives.unmoved
  refine ⟨h.bounded, fun alpha beta w halpha hbeta hw =>
    hgives hw (h.inside alpha beta _ halpha hbeta (hw.visit hsetup)), ?_, ?_⟩
  · intro alpha hlow
    obtain ⟨v, hv, hlimit, hfails⟩ := h.low alpha hlow
    exact ⟨v, hv, hlimit, fun beta w hinside hw =>
      hgives hw (hfails beta _ hinside (hw.visit hsetup))⟩
  · intro beta hhigh
    obtain ⟨v, hv, hlimit, hfails⟩ := h.high beta hhigh
    exact ⟨v, hv, hlimit, fun alpha w hinside hw =>
      hgives hw (hfails alpha _ hinside (hw.visit hsetup))⟩

/-- In every position of a game and within every window, the search past the horizon is a fail-soft
search for the value of the owed removals. -/
theorem quiet_failSoft {rule : Rule} (hpos : Position.Reachable rule pos)
    (hsetup : setup.Undisturbed)
    (hvalue : ∀ pos, -infinite < setup.evaluator.value pos ∧ setup.evaluator.value pos < infinite)
    (d : Nat) (hw : w.position = pos) (hgoing : w.stopped = false) (hinside : alpha < beta) :
    let exact := quietValue setup.evaluator.value d pos
    let found := (quiet setup d alpha beta w).1
    (found ≤ alpha → exact ≤ found) ∧ (beta ≤ found → found ≤ exact) ∧
      (alpha < found → found < beta → found = exact) ∧
      (quiet setup d (-infinite) infinite w).1 = exact := by
  have hbounded : ∀ pos, -(infinite - 1) ≤ setup.evaluator.value pos ∧
      setup.evaluator.value pos ≤ infinite - 1 := by
    intro pos
    have hstrict := hvalue pos
    omega
  have hsoft := soft_quiet hsetup (Int.sub_lt_self infinite (by decide)) hbounded hpos.sound d
  obtain ⟨v, hwithin, _, hgives⟩ := hsoft.gives hinside
  have hfound := (hgives w ⟨hw, hgoing⟩).value
  have hexact := hsoft.bounded
  simp only [hfound]
  refine ⟨fun hlow => hwithin.above (Int.lt_of_le_of_lt hlow hinside),
    fun hhigh => hwithin.below (Int.lt_of_lt_of_le hinside hhigh), hwithin.eq, ?_⟩
  -- the value of the removals is a value of the evaluator, so the full window holds it
  exact (hsoft.inside _ _ w (by omega) (by omega) ⟨hw, hgoing⟩).value

/-- The case of an owed removal and a narrow window. -/
theorem quiet_failSoft_millClosed :
    Position.Reachable {} Position.millClosed ∧
      Position.millClosed.state.action = .remove ∧ Position.millClosed.legalMoves.length = 2 ∧
      let setup : Setup := { evaluator := .byKey }
      let exact := quietValue setup.evaluator.value 16 Position.millClosed
      let found := (quiet setup 16 (-3) 3 { position := Position.millClosed, table := .new 1 1 }).1
      (found ≤ -3 → exact ≤ found) ∧ (3 ≤ found → found ≤ exact) ∧
        (-3 < found → found < 3 → found = exact) ∧
        (quiet setup 16 (-infinite) infinite
          { position := Position.millClosed, table := .new 1 1 }).1 = exact := by
  have hreach : Position.Reachable {} Position.millClosed :=
    (Position.Reachable.begin rfl).performAll _
  have howed : Position.millClosed.state.action = .remove ∧
      Position.millClosed.legalMoves.length = 2 := by decide +kernel
  have hvalue : ∀ pos, -infinite < Evaluator.byKey.value pos ∧
      Evaluator.byKey.value pos < infinite := by
    intro pos
    have hbounded := Setup.steady_byKey.bounded pos
    have hmate : Position.mate = 80 := rfl
    have hinfinite : infinite = 125 := rfl
    simp only at hbounded
    omega
  exact ⟨hreach, howed.1, howed.2, quiet_failSoft hreach Setup.steady_byKey.undisturbed hvalue 16
    rfl rfl (by decide)⟩

end

end Morris.Search
