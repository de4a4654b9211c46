import Morris.Proofs.Search.Choice
import Morris.Proofs.Search.Workers

/-!
# Searches of the root to growing depths

Each algorithm searches the root in one or more passes, or deals its moves to workers, and deepening
runs the algorithm to one depth after another on one table. At every point the move in hand is a
legal move of the root or none (`deepen_legal`), and the search says that the root has one move
exactly if it has.

What the passes of MTD(f) need is that a pass whose moves are all worthless, which records no move,
is the last one: the bounds meet there (`passes_answered`).
-/

set_option autoImplicit false

namespace Morris.Search

variable {setup : Setup} {top : Position} {depth : Int} {w : Walk}

/-! ## A root with one move -/

/-- A search with time left goes on from a root. -/
theorem Startable.visit (h : Startable top) (hintime : setup.isHurried = false)
    (hw : w.position = top) (hgoing : w.stopped = false) :
    (w.visit setup).stopped = false ∧ (w.visit setup).isAtEnd = false := by
  have hgoes : (w.visit setup).stopped = false := by
    simp [Walk.visit, hgoing, Setup.stopsAt_of_not_hurried hintime]
  have hposition : (w.visit setup).position = top := hw
  refine ⟨hgoes, ?_⟩
  rw [Walk.isAtEnd, hgoes, hposition, h.unfinished]
  rfl

/-- A root with one move that the table does not settle is not searched: the search says that the
move is the only one. -/
theorem root_single (setup : Setup) (h : Startable top) (hdepth : 1 ≤ depth)
    (hone : top.legalMoves.length = 1) (hintime : setup.isHurried = false) (flavour : Flavour)
    (known : Move) (alpha beta : Int) (hw : w.position = top) (hgoing : w.stopped = false)
    (hall : w.table.All fun e => e.depth < depth) :
    (root setup flavour depth known alpha beta w).1.unique = true ∧
      (root setup flavour depth known alpha beta w).2.stopped = false := by
  obtain ⟨d, rfl⟩ : ∃ d : Nat, depth = ((d + 1 : Nat) : Int) := ⟨depth.toNat - 1, by omega⟩
  have hvisit : (w.visit setup).position = top := hw
  obtain ⟨hgoes, hend⟩ := h.visit hintime hw hgoing
  -- no entry is deep enough to settle the root
  have hcutoff : ((w.visit setup).table.probe top.state.key ((d + 1 : Nat) : Int) alpha
      beta).cutoff = none := by
    apply Option.eq_none_iff_forall_ne_some.2
    intro v hv
    obtain ⟨e, he, _, hdeep, _⟩ := Table.All.of_cutoff (t := (w.visit setup).table) hall hv
    exact absurd he (Int.not_lt.2 hdeep)
  simp only [root, Int.toNat_natCast, hvisit, hend, h.withinLimit, hcutoff, Bool.false_eq_true,
    false_and, if_false, Option.filter_none]
  have hlength := Position.length_rankedMoves top
    ((w.visit setup).table.probe top.state.key ((d + 1 : Nat) : Int) alpha beta).move
  rw [hone] at hlength
  obtain ⟨r, hr⟩ := List.length_eq_one_iff.1 hlength
  rw [hr]
  exact ⟨rfl, hgoes⟩

/-! ## One worker -/

/-- What the passes over the root come up with. -/
structure Answered (top : Position) (depth : Int) (answer : Result × Walk) : Prop where
  position : answer.2.position = top
  legal : answer.1.move.isProper = true → answer.1.move ∈ top.legalMoves
  unique : answer.1.unique = true → top.legalMoves.length = 1
  bounded : answer.2.stopped = false → top.legalMoves ≠ [] → -infinite ≤ answer.1.value
  shallow : answer.2.table.All fun e => e.depth ≤ depth

theorem Chosen.answered {answer : Result × Walk} (h : Chosen top depth w answer)
    (hall : w.table.All fun e => e.depth ≤ depth) : Answered top depth answer :=
  ⟨h.position, h.legal, h.unique, h.bounded, h.shallow hall⟩

/-- The lack of a move counts as no illegal move. -/
theorem legal_of_none (top : Position) (h : Move.none.isProper = true) :
    Move.none ∈ top.legalMoves :=
  absurd h (by decide)

theorem helpful_of_shallow (hall : w.table.All fun e => e.depth < depth) :
    w.table.All (Table.Entry.Helpful top depth) :=
  hall.mono fun _ => Table.Entry.helpful_of_shallow

theorem atMost_of_less (hall : w.table.All fun e => e.depth < depth) :
    w.table.All fun e => e.depth ≤ depth :=
  hall.mono fun _ => Int.le_of_lt

theorem fullWindow_answered (h : Startable top) (hdepth : 1 ≤ depth) (flavour : Flavour)
    {known : Move} (hknown : known.isProper = true → known ∈ top.legalMoves)
    (hw : w.position = top) (hall : w.table.All (Table.Entry.Harmless top depth))
    (hshallow : w.table.All fun e => e.depth ≤ depth) :
    Answered top depth (fullWindow setup flavour depth known w) :=
  (root_chosen setup h hdepth flavour hknown _ _ hw hall).answered hshallow

/-- The second pass of a search around a guess runs over what the first has recorded, which is
harmless. -/
theorem aspiration_answered (h : Startable top) (hdepth : 1 ≤ depth) (guess : Int)
    (hw : w.position = top) (hall : w.table.All fun e => e.depth < depth) :
    Answered top depth (aspiration setup depth guess w) := by
  have hfirst := root_chosen setup h hdepth .principal (legal_of_none top)
    (max (guess - aspirationWidth) (-infinite)) (min (guess + aspirationWidth) infinite) hw
    ((helpful_of_shallow hall).mono fun _ he => he.harmless)
  rw [aspiration]
  simp only
  generalize root setup .principal depth .none (max (guess - aspirationWidth) (-infinite))
    (min (guess + aspirationWidth) infinite) w = first at hfirst ⊢
  split
  · rename_i hcond
    exact fullWindow_answered h hdepth .principal hfirst.legal hfirst.position
      (hfirst.harmless (by simpa using hcond.2.1) (helpful_of_shallow hall))
      (hfirst.shallow (atMost_of_less hall))
  · exact hfirst.answered (atMost_of_less hall)

theorem aspiration_single (h : Startable top) (hdepth : 1 ≤ depth)
    (hone : top.legalMoves.length = 1) (hintime : setup.isHurried = false) (guess : Int)
    (hw : w.position = top) (hgoing : w.stopped = false)
    (hall : w.table.All fun e => e.depth < depth) :
    (aspiration setup depth guess w).1.unique = true ∧
      (aspiration setup depth guess w).2.stopped = false := by
  have hfirst := root_single setup h hdepth hone hintime .principal .none
    (max (guess - aspirationWidth) (-infinite)) (min (guess + aspirationWidth) infinite) hw hgoing
    hall
  rw [aspiration]
  simp only
  rw [if_neg (by simp [hfirst.1])]
  exact hfirst

/-! ## MTD(f) -/

/-- Where the passes stand: the bounds and the last value are no less than the worst value, and only
a last value that is the lower bound may be the worst. -/
def Bounded (top : Position) (lower : Int) (last : Result) : Prop :=
  top.legalMoves = [] ∨
    (-infinite ≤ lower ∧ (last.value = lower ∨ -infinite < last.value))

/-- The passes keep a legal move in hand and the table helpful: a pass that records no move meets
the lower bound and is the last. -/
theorem passes_answered (h : Startable top) (hdepth : 1 ≤ depth) (fuel : Nat)
    {lower upper : Int} {last : Result} (hlast : Answered top depth (last, w))
    (hgoing : w.stopped = false) (hbounds : Bounded top lower last)
    (hall : w.table.All (Table.Entry.Helpful top depth)) :
    Answered top depth (passes setup depth fuel lower upper last w) := by
  induction fuel generalizing lower upper last w with
  | zero => exact hlast
  | succ fuel ih =>
      rw [passes]
      split
      · exact hlast
      · have hpass := fun beta => root_chosen setup h hdepth .plain hlast.legal
          (beta - passWidth) beta hlast.position (hall.mono fun _ he => he.harmless)
        have hbeta : top.legalMoves = [] ∨
            -infinite < if last.value = lower then last.value + passWidth else last.value := by
          have hwidth : passWidth = 5 := rfl
          rcases hbounds with hnil | ⟨hlower, hvalue⟩
          · exact Or.inl hnil
          · right
            split <;> omega
        simp only
        generalize (if last.value = lower then last.value + passWidth else last.value) = beta
          at hbeta ⊢
        specialize hpass beta
        generalize root setup .plain depth last.move (beta - passWidth) beta w = next at hpass ⊢
        have hanswered := hpass.answered hlast.shallow
        obtain ⟨r, w'⟩ := next
        split
        · exact hanswered
        · rename_i hmore
          rw [Bool.or_eq_true, not_or] at hmore
          have hgoing' : w'.stopped = false := eq_false_of_ne_true hmore.2
          split
          · -- the upper bound comes down, and may meet the lower one
            rcases Int.lt_or_le lower r.value with hopen | hmet
            · have hbetter : top.legalMoves = [] ∨ -infinite < r.value :=
                hbounds.imp_right fun hb => Int.lt_of_le_of_lt hb.1 hopen
              exact ih hanswered hgoing'
                (hbounds.imp_right fun hb =>
                  ⟨hb.1, Or.inr (Int.lt_of_le_of_lt hb.1 hopen)⟩)
                (hpass.helpful hgoing' hall hbetter)
            · rw [passes_of_met hmet]
              exact hanswered
          · -- the lower bound goes up
            rename_i hhigh
            have hbetter : top.legalMoves = [] ∨ -infinite < r.value :=
              hbeta.imp_right fun hlt => Int.lt_of_lt_of_le hlt (Int.not_lt.1 hhigh)
            exact ih hanswered hgoing'
              (hbetter.imp_right fun hlt => ⟨Int.le_of_lt hlt, Or.inl rfl⟩)
              (hpass.helpful hgoing' hall hbetter)

theorem closeIn_answered (h : Startable top) (hdepth : 1 ≤ depth) {guess : Int}
    (hguess : top.legalMoves ≠ [] → -infinite ≤ guess) (hw : w.position = top)
    (hgoing : w.stopped = false) (hall : w.table.All fun e => e.depth < depth) :
    Answered top depth (closeIn setup depth guess w) := by
  refine passes_answered h hdepth passLimit
    ⟨hw, legal_of_none top, nofun, fun _ hne => hguess hne, atMost_of_less hall⟩ hgoing ?_
    (helpful_of_shallow hall)
  by_cases hnil : top.legalMoves = []
  · exact Or.inl hnil
  · refine Or.inr ⟨Int.le_refl _, ?_⟩
    rcases Int.lt_or_eq_of_le (hguess hnil) with hlt | heq
    · exact Or.inr hlt
    · exact Or.inl heq.symm

theorem closeIn_single (h : Startable top) (hdepth : 1 ≤ depth)
    (hone : top.legalMoves.length = 1) (hintime : setup.isHurried = false) (guess : Int)
    (hw : w.position = top) (hgoing : w.stopped = false)
    (hall : w.table.All fun e => e.depth < depth) :
    (closeIn setup depth guess w).1.unique = true ∧
      (closeIn setup depth guess w).2.stopped = false := by
  have hfirst := fun beta => root_single setup h hdepth hone hintime .plain .none
    (beta - passWidth) beta hw hgoing hall
  rw [closeIn, passLimit, passes, if_neg (by decide)]
  simp only
  rw [if_pos (by simp [(hfirst _).1])]
  exact hfirst _

/-! ## Several workers -/

/-- What a search asks of a workforce: it comes back, and it gives values to no moves but those
dealt to it. -/
def Serves (workforce : Workforce) (setup : Setup) : Prop :=
  ∀ flavour depth moves workers w, w.stopped = false →
    let found := workforce setup flavour depth moves workers w
    (∀ {P : Table.Entry → Prop}, Table.Tolerant P depth → Back P w found.2) ∧
      ∀ v ∈ found.1, ∃ x ∈ moves, x.2 = v.move

/-! ## Any algorithm -/

/-- What a search of the root to a depth does over a table that holds only shallower results. -/
structure Served (top : Position) (depth : Int) (answer : Result × Walk) : Prop where
  position : answer.2.position = top
  legal : answer.1.move.isProper = true → answer.1.move ∈ top.legalMoves
  unique : answer.1.unique = true → top.legalMoves.length = 1
  single : top.legalMoves.length = 1 → answer.1.unique = true ∧ answer.2.stopped = false
  shallow : answer.2.table.All fun e => e.depth ≤ depth

theorem Answered.served {answer : Result × Walk} (h : Answered top depth answer)
    (hsingle : top.legalMoves.length = 1 → answer.1.unique = true ∧ answer.2.stopped = false) :
    Served top depth answer :=
  ⟨h.position, h.legal, h.unique, hsingle, h.shallow⟩

theorem splitAmong_served (h : Startable top) (hintime : setup.isHurried = false)
    {workforce : Workforce} (hserves : Serves workforce setup) (flavour : Flavour) (threads : Nat)
    (hw : w.position = top) (hgoing : w.stopped = false)
    (hall : w.table.All fun e => e.depth < depth) :
    Served top depth (splitAmong workforce setup flavour threads depth w) := by
  have hvisit : (w.visit setup).position = top := hw
  obtain ⟨hgoes, hend⟩ := h.visit hintime hw hgoing
  have hmany : false = true → top.legalMoves.length = 1 := fun h => absurd h Bool.false_ne_true
  have hatMost : (w.visit setup).table.All fun e => e.depth ≤ depth := atMost_of_less hall
  simp only [splitAmong, hvisit, hend, Bool.false_eq_true, if_false]
  generalize ((w.visit setup).table.probe top.state.key depth (-infinite) infinite).move =
    remembered
  have hranked : ∀ r ∈ top.rankedMoves remembered, r.move ∈ top.legalMoves :=
    fun r hr => Position.mem_legalMoves_of_ranked hr
  have hlength := Position.length_rankedMoves top remembered
  generalize top.rankedMoves remembered = ranked at hranked hlength ⊢
  rcases ranked with _ | ⟨first, _ | ⟨second, rest⟩⟩
  · exact ⟨hvisit, legal_of_none top, hmany,
      fun hone => absurd (hlength.trans hone) (by simp), hatMost⟩
  · exact ⟨hvisit, fun _ => hranked first List.mem_cons_self, fun _ => hlength.symm,
      fun _ => ⟨rfl, hgoes⟩, hatMost⟩
  · -- two moves or more are dealt out
    have hchoice : top.legalMoves.length ≠ 1 := by
      rw [← hlength]
      simp
    have hmoves : ∀ x ∈ (first :: second :: rest).mapIdx fun i r => (i, r.move),
        x.2 ∈ top.legalMoves := by
      intro x hx
      obtain ⟨i, hi, rfl⟩ := List.mem_mapIdx.1 hx
      exact hranked _ (List.getElem_mem hi)
    generalize ((first :: second :: rest).mapIdx fun i r => (i, r.move)) = moves at hmoves ⊢
    obtain ⟨hback, hvalues⟩ := hserves flavour depth moves (min threads moves.length)
      (w.visit setup) hgoes
    simp only
    generalize workforce setup flavour depth moves (min threads moves.length) (w.visit setup) =
      dealt at hback hvalues ⊢
    have hkept := (hback (Table.tolerant_atMost depth)).entries hatMost
    have hposition := (hback (Table.tolerant_atMost depth)).position.trans hvisit
    have hbest : (bestOf dealt.1).2.isProper = true → (bestOf dealt.1).2 ∈ top.legalMoves := by
      intro hproper
      rcases bestOf_mem dealt.1 with hnone | ⟨v, hv, heq⟩
      · rw [hnone] at hproper
        cases hproper
      · obtain ⟨x, hx, hsame⟩ := hvalues v hv
        rw [← heq, ← hsame]
        exact hmoves x hx
    split
    · exact ⟨hposition, fun _ => hranked first List.mem_cons_self, hmany,
        fun hone => absurd hone hchoice, hkept⟩
    · split
      · exact ⟨hposition, hbest, hmany, fun hone => absurd hone hchoice,
          hkept.save (fun _ he => he) (Table.tolerant_atMost depth).borrows (Int.le_refl depth)⟩
      · exact ⟨hposition, hbest, hmany, fun hone => absurd hone hchoice, hkept⟩

/-- A value that a search may be given as a guess: MTD(f) starts from no value below the worst. -/
def Guessable (a : Algorithm) (threads : Nat) (top : Position) (v : Int) : Prop :=
  a.splitsRoot threads = true ∨ top.legalMoves = [] ∨ -infinite ≤ v

theorem Answered.guessable {a : Algorithm} {threads : Nat} {answer : Result × Walk}
    (h : Answered top depth answer) (hgoing : answer.2.stopped = false) :
    Guessable a threads top answer.1.value := by
  by_cases hnil : top.legalMoves = []
  · exact Or.inr (Or.inl hnil)
  · exact Or.inr (Or.inr (h.bounded hgoing hnil))

theorem searchAmong_served (h : Startable top) (hdepth : 1 ≤ depth)
    (hintime : setup.isHurried = false) {workforce : Workforce} (hserves : Serves workforce setup)
    (a : Algorithm) (threads : Nat) {guess : Option Int}
    (hguess : ∀ v ∈ guess, Guessable a threads top v) (hw : w.position = top)
    (hgoing : w.stopped = false) (hall : w.table.All fun e => e.depth < depth) :
    let answer := a.searchAmong workforce threads setup depth guess w
    Served top depth answer ∧
      (answer.2.stopped = false → Guessable a threads top answer.1.value) := by
  simp only [Algorithm.searchAmong]
  split
  · rename_i hsplits
    exact ⟨splitAmong_served h hintime hserves a.flavour threads hw hgoing hall,
      fun _ => Or.inl hsplits⟩
  · rename_i hsplits
    -- one worker answers, and what it answers may be given to it as a guess
    have hserved : ∀ {answer : Result × Walk}, Answered top depth answer →
        (top.legalMoves.length = 1 → answer.1.unique = true ∧ answer.2.stopped = false) →
        Served top depth answer ∧
          (answer.2.stopped = false → Guessable a threads top answer.1.value) :=
      fun hanswered hsingle => ⟨hanswered.served hsingle, hanswered.guessable⟩
    have hfull : ∀ flavour, Answered top depth (fullWindow setup flavour depth .none w) :=
      fun flavour => fullWindow_answered h hdepth flavour (legal_of_none top) hw
        ((helpful_of_shallow hall).mono fun _ he => he.harmless) (atMost_of_less hall)
    have hsingle := fun flavour (hone : top.legalMoves.length = 1) =>
      root_single setup h hdepth hone hintime flavour .none (-infinite) infinite hw hgoing hall
    split
    · exact hserved (hfull .plain) (hsingle .plain)
    · exact hserved (hfull .principal) (hsingle .principal)
    · rename_i guess
      exact hserved (aspiration_answered h hdepth guess hw hall)
        fun hone => aspiration_single h hdepth hone hintime guess hw hgoing hall
    · have hstart : top.legalMoves ≠ [] → -infinite ≤ guess.getD 0 := by
        intro hne
        cases guess with
        | none => decide
        | some v => exact ((hguess v rfl).resolve_left hsplits).resolve_left hne
      exact hserved (closeIn_answered h hdepth hstart hw hgoing hall)
        fun hone => closeIn_single h hdepth hone hintime _ hw hgoing hall

/-! ## Deepening -/

/-- Searches to growing depths come up with a legal move or none, and say that the root has one move
exactly if it has. -/
theorem deepen_legal {search : Int → Option Int → Walk → Result × Walk} (guessable : Int → Prop)
    (hsearch : ∀ (depth : Int) (guess : Option Int) (w : Walk), 1 ≤ depth →
      (∀ v ∈ guess, guessable v) → w.position = top → w.stopped = false →
      w.table.All (fun e => e.depth < depth) →
      Served top depth (search depth guess w) ∧
        ((search depth guess w).2.stopped = false → guessable (search depth guess w).1.value))
    (timeIsUp : Bool) {depths : List Int} (hgrow : depths.Pairwise (· < ·))
    (hpositive : ∀ depth ∈ depths, 1 ≤ depth) (guess : Option Int)
    (hguess : ∀ v ∈ guess, guessable v) (report : Report)
    (hlegal : report.move.isProper = true → report.move ∈ top.legalMoves)
    (hmany : report.unique = false) (hw : w.position = top) (hgoing : w.stopped = false)
    (hall : ∀ depth ∈ depths, w.table.All fun e => e.depth < depth) :
    let answer := (deepen search timeIsUp depths guess report w).1
    (answer.move.isProper = true → answer.move ∈ top.legalMoves) ∧
      (answer.unique = true → top.legalMoves.length = 1) ∧
      (depths ≠ [] → top.legalMoves.length = 1 → answer.unique = true) := by
  induction depths generalizing guess report w with
  | nil =>
      exact ⟨hlegal, fun hunique => by simp [deepen, hmany] at hunique, fun hne => absurd rfl hne⟩
  | cons depth rest ih =>
      obtain ⟨hless, hrest⟩ := List.pairwise_cons.1 hgrow
      obtain ⟨hserved, hnext⟩ := hsearch depth guess w (hpositive depth List.mem_cons_self) hguess
        hw hgoing (hall depth List.mem_cons_self)
      rw [deepen]
      simp only
      generalize search depth guess w = found at hserved hnext ⊢
      split
      · -- a search that was stopped counts if no move is in hand
        rename_i hstopped
        have hmore : top.legalMoves.length ≠ 1 := by
          intro hone
          rw [(hserved.single hone).2] at hstopped
          cases hstopped
        split
        · exact ⟨hserved.legal, hserved.unique, fun _ hone => absurd hone hmore⟩
        · refine ⟨hlegal, fun hunique => ?_, fun _ hone => absurd hone hmore⟩
          rw [hmany] at hunique
          cases hunique
      · rename_i hstopped
        have hgoes : found.2.stopped = false := eq_false_of_ne_true hstopped
        split
        · rename_i hunique
          exact ⟨hserved.legal, hserved.unique, fun _ _ => hunique⟩
        · rename_i hunique
          have hmore : top.legalMoves.length ≠ 1 := fun hone => hunique (hserved.single hone).1
          split
          · exact ⟨hserved.legal, hserved.unique, fun _ hone => absurd hone hmore⟩
          · -- the results of this depth are shallow for the depths to come
            obtain ⟨hmove, honly, _⟩ := ih hrest
              (fun d hd => hpositive d (List.mem_cons_of_mem depth hd))
              (some found.1.value) (fun v hv => by cases hv; exact hnext hgoes)
              (report.accept found.1 depth) hserved.legal (eq_false_of_ne_true hunique)
              (w := found.2) hserved.position hgoes
              (fun d hd => hserved.shallow.mono fun _ he => Int.lt_of_le_of_lt he (hless d hd))
            exact ⟨hmove, honly, fun _ hone => absurd hone hmore⟩

/-- The depths of a search grow, and are all at least one. -/
theorem depths_spec (deepening : Bool) {greatest : Int} (h : 1 ≤ greatest) :
    (depths deepening greatest).Pairwise (· < ·) ∧ (∀ d ∈ depths deepening greatest, 1 ≤ d) ∧
      depths deepening greatest ≠ [] := by
  -- the shallower depths are those from 2 on below the greatest
  have hbefore : ∀ d ∈ (if deepening then List.range (greatest - 2).toNat else []).map
      (fun (i : Nat) => (i : Int) + 2), 2 ≤ d ∧ d < greatest := by
    intro d hd
    obtain ⟨i, hi, rfl⟩ := List.mem_map.1 hd
    cases deepening with
    | false => cases hi
    | true =>
        have hlt := List.mem_range.1 hi
        omega
  refine ⟨?_, ?_, by simp [depths]⟩
  · rw [depths, List.pairwise_append]
    refine ⟨?_, List.pairwise_singleton _ _, fun d hd d' hd' => ?_⟩
    · rw [List.pairwise_map]
      cases deepening with
      | false => exact .nil
      | true => exact List.pairwise_lt_range.imp fun hlt => by omega
    · rw [List.mem_singleton.1 hd']
      exact (hbefore d hd).2
  · intro d hd
    rcases List.mem_append.1 hd with hbelow | hlast
    · have hle := (hbefore d hbelow).1
      omega
    · rw [List.mem_singleton.1 hlast]
      exact h

/-- A search of a position over an empty table comes up with a legal move or none, and says that it
is the only one exactly if it is. -/
theorem iterateAmong_legal {workforce : Workforce} (hserves : Serves workforce setup)
    (h : Startable top) (hintime : setup.isHurried = false) (a : Algorithm) (threads : Nat)
    (maxDepth : Int) (deepening : Bool) (hw : w.position = top) (hgoing : w.stopped = false)
    (hempty : w.table.stored = {}) :
    let answer := (iterateAmong workforce a threads setup maxDepth deepening w).1
    (answer.move.isProper = true → answer.move ∈ top.legalMoves) ∧
      (answer.unique = true ↔ top.legalMoves.length = 1) := by
  obtain ⟨hgrow, hpositive, hne⟩ := depths_spec deepening
    (Int.le_max_left 1 (min maxDepth depthLimit))
  obtain ⟨hlegal, hunique, hsingle⟩ := deepen_legal (Guessable a threads top)
    (fun depth guess w hdepth hguess hw hgoing hall =>
      searchAmong_served h hdepth hintime hserves a threads hguess hw hgoing hall)
    setup.timeIsUp hgrow hpositive none nofun {} nofun rfl hw hgoing
    (fun depth _ => Table.all_of_stored_eq_empty hempty)
  exact ⟨hlegal, hunique, hsingle hne⟩

end Morris.Search
