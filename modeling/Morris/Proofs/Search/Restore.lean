import Morris.Proofs.Search.Interrupted

/-!
# Searches leave the position alone

A search plays and takes back moves on the position that it is given. Whichever way it ends, the
position and the saved states are those that it started with (`Search.Restored`): a move that is
refused has changed nothing, and every move that is played is taken back before a cutoff, a stop or
the end of the list is looked at. `Frame` has this for the nodes below the root. Here it is carried
through the searches of the root, the repeated passes, the workers and the deepening
(`Search.search_restores`), without any condition on the position, the table, the window or the node
at which the search is stopped. Workers at the same time play on copies of their own, so the order
in which they work is no condition either.
-/

set_option autoImplicit false

namespace Morris.Search

variable {setup : Setup} {w w' w'' : Walk}

theorem restored_descend (setup : Setup) (flavour : Flavour) (depth alpha beta : Int) (w : Walk) :
    Restored w (descend setup flavour depth alpha beta w).2 :=
  (comesBack_descend setup (tolerant_any (depth + 1)) flavour (by omega) alpha beta w).restored

/-! ## One worker -/

theorem restored_visit (w : Walk) (setup : Setup) : Restored w (w.visit setup) := ⟨rfl, rfl⟩

theorem restored_staticValue (setup : Setup) (depth : Int) (w : Walk) :
    Restored w (staticValue setup depth w).2 := ⟨rfl, rfl⟩

theorem restored_finishNode (setup : Setup) (depth alpha beta : Int) (p : Progress) (w : Walk) :
    Restored w (finishNode setup depth alpha beta p w).2 := by
  simp only [finishNode]
  split
  · split
    · exact restored_staticValue setup depth w
    · exact .refl w
  · exact ⟨rfl, rfl⟩

/-- Trying the moves of a node takes each of them back. -/
theorem restored_tryMoves (setup : Setup) (flavour : Flavour) (d : Nat) (beta : Int)
    (ranked : List RankedMove) (p : Progress) (w : Walk) :
    Restored w (tryMoves (child flavour (node setup flavour d)) beta 0 ranked p w).2 := by
  have hframing := framing_back setup fun _ => True
  have hnode : Keeps (Back fun _ => True) (node setup flavour d) :=
    comesBack_node (tolerant_any (d + 1)) flavour (by omega)
  exact (hframing.tryMoves (fun i flips => hframing.child hnode flavour i flips) beta ranked p w
    0).restored

/-- Searching the root takes every move back. -/
theorem restored_root (setup : Setup) (flavour : Flavour) (depth : Int) (known : Move)
    (alpha beta : Int) (w : Walk) : Restored w (root setup flavour depth known alpha beta w).2 := by
  have hvisit := restored_visit w setup
  have hstatic := hvisit.trans (restored_staticValue setup depth (w.visit setup))
  simp only [root]
  split
  · exact ((framing_back setup fun _ => True).horizon depth alpha beta w).restored
  · split
    · exact hstatic
    · generalize (if isPastMoveLimit (w.visit setup).position = true then 0 else alpha) = low
      split
      · exact hvisit
      · split
        · exact hvisit
        · split
          · exact hstatic
          · exact hvisit
          · exact (hvisit.trans (restored_tryMoves setup flavour _ _ _ _ _)).trans
              (restored_finishNode setup depth _ _ _ _)

theorem restored_aspiration (setup : Setup) (depth guess : Int) (w : Walk) :
    Restored w (aspiration setup depth guess w).2 := by
  have hfirst := restored_root setup .principal depth .none
    (max (guess - aspirationWidth) (-infinite)) (min (guess + aspirationWidth) infinite) w
  rw [aspiration]
  simp only
  split
  · exact hfirst.trans (restored_root setup .principal depth _ (-infinite) infinite _)
  · exact hfirst

theorem restored_passes (setup : Setup) (depth : Int) (fuel : Nat) (lower upper : Int)
    (last : Result) (w : Walk) : Restored w (passes setup depth fuel lower upper last w).2 := by
  induction fuel generalizing lower upper last w with
  | zero => exact .refl w
  | succ fuel ih =>
      rw [passes]
      split
      · exact .refl w
      · simp only
        generalize (if last.value = lower then last.value + passWidth else last.value) = beta
        have hpass := restored_root setup .plain depth last.move (beta - passWidth) beta w
        split
        · exact hpass
        · split
          · exact hpass.trans (ih _ _ _ _)
          · exact hpass.trans (ih _ _ _ _)

/-! ## Several workers -/

/-- A root split among workers that serve leaves the caller's position alone. -/
theorem restored_splitAmong {workforce : Workforce} (h : Serves workforce setup) (flavour : Flavour)
    (threads : Nat) (depth : Int) (w : Walk) :
    Restored w (splitAmong workforce setup flavour threads depth w).2 := by
  have hvisit := restored_visit w setup
  have hstatic := hvisit.trans (restored_staticValue setup depth (w.visit setup))
  simp only [splitAmong]
  split
  · exact hstatic
  · rename_i hend
    have hgoing : (w.visit setup).stopped = false := by
      rw [Walk.isAtEnd, Bool.or_eq_true, not_or] at hend
      exact eq_false_of_ne_true hend.2
    generalize (w.visit setup).position.rankedMoves _ = ranked
    rcases ranked with _ | ⟨first, _ | ⟨second, rest⟩⟩
    · exact hstatic
    · exact hvisit
    · simp only
      generalize ((first :: second :: rest).mapIdx fun i r => (i, r.move)) = moves
      have hdealt := hvisit.trans ((h flavour depth moves (min threads moves.length)
        (w.visit setup) hgoing).1 (tolerant_any depth)).restored
      split
      · exact hdealt.trans (restored_staticValue setup depth _)
      · split
        · exact hdealt.trans ⟨rfl, rfl⟩
        · exact hdealt

/-! ## Any algorithm -/

/-- Every algorithm leaves the caller's position alone, with any number of threads. -/
theorem restored_searchAmong {workforce : Workforce} (h : Serves workforce setup) (a : Algorithm)
    (threads : Nat) (depth : Int) (guess : Option Int) (w : Walk) :
    Restored w (a.searchAmong workforce threads setup depth guess w).2 := by
  simp only [Algorithm.searchAmong]
  split
  · exact restored_splitAmong h a.flavour threads depth w
  · split
    · exact restored_root setup .plain depth .none (-infinite) infinite w
    · exact restored_root setup .principal depth .none (-infinite) infinite w
    · exact restored_aspiration setup depth _ w
    · exact restored_passes setup depth passLimit (-infinite) infinite _ w

/-- Deepening comes back if every one of its searches does. -/
theorem restored_deepen {search : Int → Option Int → Walk → Result × Walk}
    (h : ∀ depth guess w, Restored w (search depth guess w).2) (timeIsUp : Bool)
    (depths : List Int) (guess : Option Int) (report : Report) (w : Walk) :
    Restored w (deepen search timeIsUp depths guess report w).2 := by
  induction depths generalizing guess report w with
  | nil => exact .refl w
  | cons depth rest ih =>
      have hfirst := h depth guess w
      simp only [deepen]
      split
      · exact hfirst
      · split
        · exact hfirst
        · split
          · exact hfirst
          · exact hfirst.trans (ih _ _ _)

theorem restored_iterateAmong {workforce : Workforce} (h : Serves workforce setup) (a : Algorithm)
    (threads : Nat) (maxDepth : Int) (deepening : Bool) (w : Walk) :
    Restored w (iterateAmong workforce a threads setup maxDepth deepening w).2 :=
  restored_deepen (restored_searchAmong h a threads) setup.timeIsUp _ none {} w

/-- Every search of a position, to any depth and within any window, by any algorithm with any number
of workers, at once or by deepening, ends with the position and the saved states that it began with.
This holds of any position, table, guess and evaluator, of any keys of earlier positions, and
whether or not the search is stopped, at whatever node or evaluation. It holds for workers one after
another and for workers at the same time: for every concurrent workforce if nothing stops the
search, and for every one whose workers may be stopped if something does. -/
theorem search_restores (setup : Setup) (w : Walk) :
    (∀ flavour depth alpha beta, Restored w (descend setup flavour depth alpha beta w).2) ∧
      (∀ flavour depth known alpha beta,
        Restored w (root setup flavour depth known alpha beta w).2) ∧
      (∀ flavour threads depth, Restored w (split setup flavour threads depth w).2) ∧
      (∀ (a : Algorithm) threads depth guess,
        Restored w (a.search threads setup depth guess w).2) ∧
      (∀ a threads maxDepth deepening,
        Restored w (iterate a threads setup maxDepth deepening w).2) ∧
      ∀ workforce, (Concurrent workforce ∧ setup.Undisturbed) ∨ Interruptible workforce →
        (∀ flavour threads depth,
          Restored w (splitAmong workforce setup flavour threads depth w).2) ∧
        (∀ (a : Algorithm) threads depth guess,
          Restored w (a.searchAmong workforce threads setup depth guess w).2) ∧
        ∀ a threads maxDepth deepening,
          Restored w (iterateAmong workforce a threads setup maxDepth deepening w).2 := by
  have hinTurn := interruptible_inTurn.serves setup
  refine ⟨fun flavour depth alpha beta => restored_descend setup flavour depth alpha beta w,
    fun flavour depth known alpha beta => restored_root setup flavour depth known alpha beta w,
    fun flavour threads depth => restored_splitAmong hinTurn flavour threads depth w,
    fun a threads depth guess => restored_searchAmong hinTurn a threads depth guess w,
    fun a threads maxDepth deepening =>
      restored_iterateAmong hinTurn a threads maxDepth deepening w,
    fun workforce hruns => ?_⟩
  have hserves := serves_of_runs hruns
  exact ⟨fun flavour threads depth => restored_splitAmong hserves flavour threads depth w,
    fun a threads depth guess => restored_searchAmong hserves a threads depth guess w,
    fun a threads maxDepth deepening =>
      restored_iterateAmong hserves a threads maxDepth deepening w⟩

/-- The case of four workers, each of whom is stopped at its fiftieth node of a search before the
first move of Nine Men's Morris. -/
theorem search_restores_split :
    let top : Position := .ofVariant (.ofRule {})
    let setup : Setup := { evaluator := .byKey, stopAt := some 50 }
    let w : Walk := { position := top, table := .new 4 256 }
    Interruptible inTurn ∧ (splitAmong inTurn setup .principal 4 3 w).2.position = top ∧
      (splitAmong inTurn setup .principal 4 3 w).2.saved = [] := by
  intro top setup w
  obtain ⟨_, _, _, _, _, hworkforce⟩ := search_restores setup w
  obtain ⟨hsplit, _, _⟩ := hworkforce inTurn (Or.inr interruptible_inTurn)
  have hrestored := hsplit .principal 4 3
  exact ⟨interruptible_inTurn, hrestored.position, hrestored.saved⟩

end Morris.Search
