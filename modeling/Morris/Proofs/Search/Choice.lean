import Morris.Proofs.Search.Frame
import Morris.Proofs.Search.Node
import Morris.Search.Deepening

/-!
# The move that the root chooses

The move that a search of the root comes up with is one of the root's legal moves or none, whatever
way it takes there: a move that raised alpha, the best move of a pass that raised nothing, a move
that the table remembers, the only move, or the best move of the workers. Searches of the root
follow one another on one table, so each has to leave a table that does not mislead the next. A
table may hold entries of other positions that share the key of the root; they are too shallow to
matter as long as the depth grows from one search to the next (`Search.Chosen`), and between the
passes of one search the deep entries of the root's key are the root's own (`Table.Entry.Helpful`).

Nothing is asked of the evaluator, and a search that is stopped midway still comes up with a legal
move or none.
-/

set_option autoImplicit false

namespace Morris

open Search (infinite)

/-! ## Entries of the root -/

namespace Table

variable {top : Position} {depth : Int}

/-- An entry that does not mislead a search of a position to a depth: if the search may take its
value, its move, if any, is legal. -/
def Entry.Harmless (top : Position) (depth : Int) (e : Entry) : Prop :=
  e.key = top.state.key → depth ≤ e.depth →
    -infinite ≤ e.value ∧ (e.move.isProper = true → e.move ∈ top.legalMoves)

/-- An entry that a search of a position to a depth may also take the move of. -/
def Entry.Helpful (top : Position) (depth : Int) (e : Entry) : Prop :=
  e.key = top.state.key → depth ≤ e.depth →
    -infinite ≤ e.value ∧ e.move.isProper = true ∧ e.move ∈ top.legalMoves

theorem Entry.Helpful.harmless {e : Entry} (h : e.Helpful top depth) : e.Harmless top depth :=
  fun hkey hdeep => ⟨(h hkey hdeep).1, fun _ => (h hkey hdeep).2.2⟩

theorem Entry.helpful_of_shallow {e : Entry} (h : e.depth < depth) : e.Helpful top depth :=
  fun _ hdeep => absurd h (Int.not_lt.2 hdeep)

/-- An entry that the search may take has a move already, so it borrows none. -/
theorem borrows_helpful {Q : Entry → Prop} (hQ : ∀ e, Entry.Helpful top depth e → Q e) :
    Borrows (Entry.Helpful top depth) Q := by
  intro old new hold _ himproper
  apply hQ
  intro hkey hdeep
  have hproper := (hold hkey hdeep).2.1
  rw [himproper] at hproper
  cases hproper

theorem tolerant_helpful (top : Position) (depth : Int) :
    Tolerant (Entry.Helpful top depth) depth :=
  ⟨fun _ => Entry.helpful_of_shallow, borrows_helpful fun _ he => he⟩

theorem tolerant_atMost (depth : Int) : Tolerant (fun e => e.depth ≤ depth) depth :=
  ⟨fun _ => Int.le_of_lt, fun _ _ hold _ _ => hold⟩

end Table

namespace Search

variable {setup : Setup} {top : Position} {depth : Int} {w w' : Walk}

/-! ## One search of the root -/

/-- A position that a search may start from: the game goes on, and no limit on quiet moves has been
passed. -/
structure Startable (top : Position) : Prop extends top.Sound where
  unfinished : top.isOver = false
  withinLimit : isPastMoveLimit top = false

theorem Startable.proper (h : Startable top) {m : Move} (hm : m ∈ top.legalMoves) :
    m.isProper = true :=
  h.isProper_of_mem_legalMoves (by simpa [Position.isOver] using h.unfinished) hm

/-- What a search of the root does: its move is legal or none, only a root with one move makes it
say that the move is the only one, and the table it leaves does not mislead the next search. -/
structure Chosen (top : Position) (depth : Int) (w : Walk) (answer : Result × Walk) : Prop where
  position : answer.2.position = top
  legal : answer.1.move.isProper = true → answer.1.move ∈ top.legalMoves
  unique : answer.1.unique = true → top.legalMoves.length = 1
  bounded : answer.2.stopped = false → top.legalMoves ≠ [] → -infinite ≤ answer.1.value
  shallow : w.table.All (fun e => e.depth ≤ depth) → answer.2.table.All fun e => e.depth ≤ depth
  harmless : answer.2.stopped = false → w.table.All (Table.Entry.Helpful top depth) →
    answer.2.table.All (Table.Entry.Harmless top depth)
  helpful : answer.2.stopped = false → w.table.All (Table.Entry.Helpful top depth) →
    top.legalMoves = [] ∨ -infinite < answer.1.value →
    answer.2.table.All (Table.Entry.Helpful top depth)

/-- A search that records nothing. -/
theorem chosen_of_table_eq {r : Result} (hposition : w'.position = top)
    (htable : w'.table = w.table)
    (hlegal : r.move.isProper = true → r.move ∈ top.legalMoves)
    (hunique : r.unique = true → top.legalMoves.length = 1)
    (hbounded : w'.stopped = false → top.legalMoves ≠ [] → -infinite ≤ r.value) :
    Chosen top depth w (r, w') := by
  refine ⟨hposition, hlegal, hunique, hbounded, ?_, ?_, ?_⟩
  · intro hall
    rw [htable]
    exact hall
  · intro _ hall
    rw [htable]
    exact hall.mono fun _ he => he.harmless
  · intro _ hall _
    rw [htable]
    exact hall

theorem finishNode_of_going (h : w.stopped = false) (depth alpha beta : Int) (p : Progress) :
    finishNode setup depth alpha beta p w =
      (p.best, { w with
        table := w.table.save w.position.state.key depth (some (boundOf alpha beta p.best)) p.best
          p.bestMove }) := by
  simp [finishNode, h]

/-- A search that has been stopped stays so. -/
theorem finishNode_of_stopped (h : w.stopped = true) (depth alpha beta : Int) (p : Progress) :
    (finishNode setup depth alpha beta p w).2.stopped = true := by
  simp only [finishNode, h, if_true]
  split
  · simp [staticValue, Walk.evaluate, h]
  · exact h

/-- The move that the root chooses after its moves have been searched. -/
theorem mem_of_picked {ranked : List RankedMove} (hranked : ∀ r ∈ ranked, r.move ∈ top.legalMoves)
    (hne : ranked ≠ []) {alpha : Int} {p : Progress} (hp : Picked ranked { alpha := alpha } p)
    {known : Move} (hknown : known.isProper = true → known ∈ top.legalMoves) :
    (if (p.raised.getD known).isProper then p.raised.getD known
      else if p.bestMove.isProper then p.bestMove else bestRanked ranked) ∈ top.legalMoves := by
  split
  · rename_i hproper
    -- a raised move is a ranked one, and so is the best
    rcases hp.raised with hnone | ⟨r, hr, hraised⟩
    · rw [hnone] at hproper ⊢
      exact hknown hproper
    · rw [hraised]
      exact hranked r hr
  · split
    · rename_i hproper
      rcases hp.best with ⟨_, hnone⟩ | ⟨_, r, hr, hmove⟩
      · rw [hnone] at hproper
        cases hproper
      · rw [← hmove]
        exact hranked r hr
    · cases ranked with
      | nil => exact absurd rfl hne
      | cons r rest => exact hranked r List.mem_cons_self

/-- What the root records when its moves have been searched: the entry is harmless, and helpful if
some move was better than the worst. -/
theorem entry_of_picked (h : Startable top) (depth : Int) {ranked : List RankedMove}
    (hranked : ∀ r ∈ ranked, r.move ∈ top.legalMoves) {alpha : Int} {p : Progress}
    (hp : Picked ranked { alpha := alpha } p) (key : Key) (bound : Bound) (generation : UInt8) :
    Table.Entry.Harmless top depth ⟨key, p.best, depth, bound, p.bestMove, generation⟩ ∧
      (-infinite < p.best →
        Table.Entry.Helpful top depth ⟨key, p.best, depth, bound, p.bestMove, generation⟩) := by
  have hle : -infinite ≤ p.best := hp.best_le
  rcases hp.best with ⟨hbest, hnone⟩ | ⟨_, r, hr, hmove⟩
  · refine ⟨fun _ _ => ⟨hle, fun hproper => ?_⟩, fun hlt => ?_⟩
    · rw [hnone] at hproper
      cases hproper
    · rw [hbest] at hlt
      exact absurd hlt (Int.lt_irrefl _)
  · have hlegal : p.bestMove ∈ top.legalMoves := hmove ▸ hranked r hr
    exact ⟨fun _ _ => ⟨hle, fun _ => hlegal⟩, fun _ _ _ => ⟨hle, h.proper hlegal, hlegal⟩⟩

/-- The search of all moves of the root. -/
theorem chosen_of_tried (setup : Setup) (h : Startable top) (flavour : Flavour) {d : Nat}
    (hd : (d : Int) < depth) {ranked : List RankedMove}
    (hranked : ∀ r ∈ ranked, r.move ∈ top.legalMoves) (hne : ranked ≠ []) (alpha beta : Int)
    {known : Move} (hknown : known.isProper = true → known ∈ top.legalMoves)
    (hw : w.position = top) :
    let tried := tryMoves (child flavour (node setup flavour d)) beta 0 ranked { alpha := alpha } w
    let raised := tried.1.raised.getD known
    let move :=
      if raised.isProper then raised
      else if tried.1.bestMove.isProper then tried.1.bestMove
      else bestRanked ranked
    let finished := finishNode setup depth alpha beta tried.1 tried.2
    Chosen top depth w (⟨finished.1, move, false⟩, finished.2) := by
  have hback : ∀ {P : Table.Entry → Prop}, Table.Tolerant P depth → Back P w
      (tryMoves (child flavour (node setup flavour d)) beta 0 ranked { alpha := alpha } w).2 :=
    fun hP => (framing_back setup _).tryMoves (fun i flips =>
      (framing_back setup _).child (comesBack_node hP flavour hd) flavour i flips) beta _ _ _ 0
  have hpicked := tryMoves_picked (child flavour (node setup flavour d)) beta ranked
    { alpha := alpha } w 0
  have hmove := mem_of_picked hranked hne hpicked hknown
  -- the walk through the moves is used by what it gives back and by what it picked, no longer by
  -- its code
  generalize tryMoves (child flavour (node setup flavour d)) beta 0 ranked { alpha := alpha } w =
    tried at hback hpicked hmove ⊢
  obtain ⟨p, w'⟩ := tried
  simp only at hback hpicked hmove ⊢
  have hposition : w'.position = top := (hback (Table.tolerant_atMost depth)).position.trans hw
  cases hgoing : w'.stopped with
  | true =>
      -- every promise about the table is made to a walk that goes on; this one was stopped
      have hstopped : ∀ {claim : Prop},
          (finishNode setup depth alpha beta p w').2.stopped = false → claim := by
        intro claim hfalse
        rw [finishNode_of_stopped hgoing] at hfalse
        cases hfalse
      have hfinish : Back (fun e => e.depth ≤ depth) w'
          (finishNode setup depth alpha beta p w').2 :=
        back_finishNode setup (Table.tolerant_atMost depth).borrows alpha beta
          fun _ => Int.le_refl depth
      exact ⟨hfinish.position.trans hposition, fun _ => hmove, nofun, fun hgo => hstopped hgo,
        fun hall => hfinish.entries ((hback (Table.tolerant_atMost depth)).entries hall),
        fun hgo => hstopped hgo, fun hgo => hstopped hgo⟩
  | false =>
      rw [finishNode_of_going hgoing]
      have hentry := entry_of_picked h depth hranked hpicked w'.position.state.key
        (boundOf alpha beta p.best) w'.table.generation
      refine ⟨hposition, fun _ => hmove, nofun, fun _ _ => hpicked.best_le, ?_, ?_, ?_⟩
      · intro hall
        have hkept := (hback (Table.tolerant_atMost depth)).entries hall
        exact hkept.save (fun _ he => he) (Table.tolerant_atMost depth).borrows (Int.le_refl depth)
      · intro _ hall
        have hkept := (hback (Table.tolerant_helpful top depth)).entries hall
        exact hkept.save (fun _ he => he.harmless)
          (Table.borrows_helpful fun _ he => he.harmless) hentry.1
      · intro _ hall hbetter
        have hkept := (hback (Table.tolerant_helpful top depth)).entries hall
        refine hkept.save (fun _ he => he) (Table.tolerant_helpful top depth).borrows
          (hentry.2 (hbetter.resolve_left fun hnil => ?_))
        rw [hnil] at hmove
        cases hmove

/-- A search of the root within any window, over a table that does not mislead it. -/
theorem root_chosen (setup : Setup) (h : Startable top) (hdepth : 1 ≤ depth) (flavour : Flavour)
    {known : Move} (hknown : known.isProper = true → known ∈ top.legalMoves) (alpha beta : Int)
    (hw : w.position = top) (hall : w.table.All (Table.Entry.Harmless top depth)) :
    Chosen top depth w (root setup flavour depth known alpha beta w) := by
  -- no value but that of the only move says that it is the only one
  have hmany : ∀ {claim : Prop}, false = true → claim := fun h => absurd h Bool.false_ne_true
  obtain ⟨d, rfl⟩ : ∃ d : Nat, depth = ((d + 1 : Nat) : Int) := ⟨depth.toNat - 1, by omega⟩
  have hvisit : (w.visit setup).position = top := hw
  have hprobed : (w.visit setup).table.All (Table.Entry.Harmless top ((d + 1 : Nat) : Int)) := hall
  simp only [root, Int.toNat_natCast, hvisit, h.withinLimit, Bool.false_eq_true, false_and,
    if_false]
  split
  · -- the search has been stopped already
    rename_i hend
    have hstopped : (w.visit setup).stopped = true := by
      simpa [Walk.isAtEnd, hvisit, h.unfinished] using hend
    refine chosen_of_table_eq hvisit rfl hknown hmany fun hgoing => ?_
    simp [staticValue, Walk.evaluate, hstopped] at hgoing
  · split
    · -- the table settles the root, with a move
      rename_i v hsettled
      obtain ⟨hcutoff, hproper⟩ := Option.filter_eq_some_iff.1 hsettled
      obtain ⟨e, he, hkey, hdeep, hvalue, hmove⟩ := hprobed.of_cutoff hcutoff
      obtain ⟨hle, hlegal⟩ := he hkey hdeep
      refine chosen_of_table_eq hvisit rfl (fun _ => ?_) hmany fun _ _ => hvalue ▸ hle
      rw [hmove] at hproper ⊢
      exact hlegal hproper
    · generalize (w.visit setup).table.probe top.state.key ((d + 1 : Nat) : Int) alpha beta = probe
      have hranked : ∀ r ∈ top.rankedMoves probe.move, r.move ∈ top.legalMoves :=
        fun r hr => Position.mem_legalMoves_of_ranked hr
      have hlength := Position.length_rankedMoves top probe.move
      generalize top.rankedMoves probe.move = ranked at hranked hlength ⊢
      rcases ranked with _ | ⟨first, _ | ⟨second, rest⟩⟩
      · exact chosen_of_table_eq hvisit rfl hknown hmany fun _ hne =>
          absurd (List.eq_nil_of_length_eq_zero hlength.symm) hne
      · exact chosen_of_table_eq hvisit rfl (fun _ => hranked first List.mem_cons_self)
          (fun _ => hlength.symm) fun _ _ => (by decide : -infinite ≤ uniqueValue)
      · have hd : (d : Int) < ((d + 1 : Nat) : Int) := by omega
        have hchosen := chosen_of_tried setup h flavour hd hranked (by simp) probe.alpha probe.beta
          hknown hvisit
        exact ⟨hchosen.position, hchosen.legal, hchosen.unique, hchosen.bounded,
          hchosen.shallow, hchosen.harmless, hchosen.helpful⟩

end Search

end Morris
