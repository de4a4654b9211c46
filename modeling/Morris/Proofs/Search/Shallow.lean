import Mathlib.Data.List.Perm.Basic
import Morris.Proofs.Draws
import Morris.Proofs.Search.Choice

/-!
# Children of a shallow root

A root that is searched to a depth of one or two has children at the horizon or one step above it.
One step above the horizon a search reads and writes the table under the key of its own position
only, so over a table without that key the search of a child comes to one value, whatever the table
holds otherwise: exactly in the full window, and within the window if alpha has been raised
(`Search.Leads`). The table is then as before but for that key.

A child past a limit on quiet moves takes care. Nodes answer there as if a draw were at hand
although a removal is owed, so the value of such a child may lie below zero and be what the loop
over its moves finds above a lower end of zero. A search comes to that same value whenever the
window reaches above zero, which it does in the end, since the child is for the side that moves at
the root (`Position.Sound.flips_of_isPastMoveLimit`).
-/

set_option autoImplicit false

namespace Morris

/-! ## Tables without some keys -/

namespace Table

variable {keys : List Key} {limit : Int} {t : Table}

/-- Of which values a table without some keys tells: no bound holds for every value, so no entry has
one of the keys. -/
def Absent (keys : List Key) (key : Key) (_ _ : Int) : Prop := key ∈ keys

theorem Truthful.absent (h : t.Truthful (Absent keys) limit) : t.All fun e => e.key ∉ keys := by
  intro address b hb slot e he hmem
  have hbound := (h address b hb slot e he).bound
  cases hkind : e.bound with
  | upper =>
      have hle : e.value + 1 ≤ e.value := by
        simpa [hkind, Bound.Holds] using hbound (e.value + 1) hmem
      omega
  | lower =>
      have hle : e.value ≤ e.value - 1 := by
        simpa [hkind, Bound.Holds] using hbound (e.value - 1) hmem
      omega
  | exact =>
      have heq : e.value = e.value + 1 := by
        simpa [hkind, Bound.Holds] using hbound (e.value + 1) hmem
      omega

/-- Among entries of one value that is not positive, a look-up with a lower end of zero settles the
position by this value or leaves the window as it is. -/
theorem probe_of_value {key : Key} {v beta : Int} (h : t.All fun e => e.key = key → e.value = v)
    (hv : v ≤ 0) (depth : Int) :
    (∀ u, (t.probe key depth 0 beta).cutoff = some u → u = v) ∧
      ((t.probe key depth 0 beta).cutoff = none →
        (t.probe key depth 0 beta).alpha = 0 ∧ (t.probe key depth 0 beta).beta = beta) := by
  constructor
  · intro u hu
    obtain ⟨e, he, hkey, _, rfl, _⟩ := h.of_cutoff hu
    exact he hkey
  · simp only [Table.probe]
    split
    · exact fun _ => ⟨rfl, rfl⟩
    · rename_i e he
      obtain ⟨hkey, slot, hslot⟩ := Bucket.find?_spec he
      have hvalue : e.value = v := h.bucket _ slot e hslot hkey
      split
      · exact fun _ => ⟨rfl, rfl⟩
      · simp only [Entry.narrow, hvalue]
        -- a bound from above closes the window, one from below does not narrow it
        split
        · exact fun hnone => absurd hnone (Option.some_ne_none v)
        · exact fun _ => ⟨Int.max_eq_left hv, rfl⟩
        · simp only [ite_eq_right_iff, reduceCtorEq, imp_false]
          omega

end Table

/-! ## Sides past a limit on quiet moves -/

namespace Position

/-- A move that passes the turn does not lead past a limit on quiet moves unless the game is over.
-/
theorem Sound.flips_of_isPastMoveLimit {pos : Position} (h : pos.Sound) (hover : pos.isOver = false)
    {m : Move} (hm : m ∈ pos.legalMoves) (hnext : (pos.after m).isOver = false)
    (hlimit : Search.isPastMoveLimit (pos.after m) = true) : pos.flips m = false := by
  obtain ⟨happly, hsound, _⟩ := h.after_spec hover hm
  have hquiet := hsound.quiet_le hnext
  have hendgame : (pos.after m).isEndgameLimitReached = true := by
    simpa [Search.isPastMoveLimit, Nat.not_lt.2 hquiet] using hlimit
  rcases h.endgameOpen_apply happly with hdone | ⟨_, hside⟩ | hopen
  · simp [isOver, hdone] at hnext
  · simp [flips, hside]
  · rw [hopen] at hendgame
    cases hendgame

end Position

namespace Search

variable {setup : Setup} {flavour : Flavour} {d : Nat} {pos : Position} {saved : List State}
  {flips : Bool} {keys : List Key} {v alpha beta : Int} {w w' : Walk}

/-! ## Values of children -/

open Table (Absent)

/-- The value that the search of a child comes to, for its parent, over any table without its key.
-/
structure Leads (setup : Setup) (flavour : Flavour) (d : Nat) (pos : Position) (saved : List State)
    (flips : Bool) (v : Int) : Prop where
  bounded : -valueLimit ≤ v ∧ v ≤ valueLimit
  answers : ∀ {keys : List Key} {alpha : Int} {w : Walk} (i : Nat), pos.state.key ∉ keys →
    alpha < infinite → w.position = pos → w.saved = saved →
    Ready (Absent (pos.state.key :: keys)) w →
    Answer (Absent keys) alpha infinite v w
      (child flavour (node setup flavour d) i flips alpha infinite w)

/-- Of which values a table tells that lacks some keys and has entries of one value for another. -/
def Own (keys : List Key) (own : Key) (value : Int) (key : Key) (_ exact : Int) : Prop :=
  key ∈ keys ∨ (key = own ∧ exact = value)

theorem Returned.mono {holds holds' : Key → Int → Int → Prop} (h : Returned holds w w')
    (hless : ∀ key stored exact, holds' key stored exact → holds key stored exact) :
    Returned holds' w w' :=
  ⟨h.toReady.mono hless, h.position, h.saved⟩

theorem leads_of_answers (hbounded : -valueLimit ≤ v ∧ v ≤ valueLimit)
    (h : ∀ keys, pos.state.key ∉ keys →
      AnswersFrom (Own keys pos.state.key v) (node setup flavour d) pos saved v) (flips : Bool) :
    Leads setup flavour d pos saved flips (if flips then -v else v) where
  bounded := by split <;> omega
  answers := by
    intro keys alpha w i hkey halpha hpos hsaved hready
    have hown : Ready (Own keys pos.state.key v) w := by
      apply hready.mono
      rintro key _ _ (hmem | ⟨rfl, _⟩)
      · exact List.mem_cons_of_mem _ hmem
      · exact List.mem_cons_self
    have hanswer := (h keys hkey).child flavour i flips alpha infinite w halpha hpos hsaved hown
    exact ⟨hanswer.toWithin, hanswer.bounded, hanswer.returned.mono fun _ _ _ => Or.inl⟩

/-- At the horizon the table plays no part. -/
theorem leads_horizon (hsetup : setup.Steady) (hsound : pos.Sound) (flavour : Flavour)
    (saved : List State) (flips : Bool) : ∃ v, Leads setup flavour 0 pos saved flips v :=
  ⟨_, leads_of_answers (hsetup.negamax_within (by decide) pos)
    (fun _ _ => answers_iff_from.1 (answers_horizon hsetup hsound) saved) flips⟩

theorem isRepetition_congr (hpos : w'.position = w.position) (hsaved : w'.saved = w.saved) :
    isRepetition setup w' = isRepetition setup w := by
  simp only [isRepetition, hpos, hsaved]

theorem leads_of_repetition (hsetup : setup.Undisturbed) (hover : pos.isOver = false)
    (hrepetition : ∀ w, w.position = pos → w.saved = saved → isRepetition setup w = true)
    (flavour : Flavour) (flips : Bool) : ∃ v, Leads setup flavour (d + 1) pos saved flips v := by
  have hbounded : -valueLimit ≤ 0 ∧ 0 ≤ valueLimit := by decide
  refine ⟨_, leads_of_answers hbounded (fun keys _ => ?_) flips⟩
  intro alpha beta w _ hpos hsaved hready
  have hend := (hready.isAtEnd_visit hsetup).trans (hpos ▸ hover)
  rw [node_of_repetition hend (hrepetition _ hpos hsaved)]
  exact (hready.visit hsetup).answer alpha beta hbounded

/-- The searches below a position one step above the horizon. -/
theorem children_horizon {holds : Key → Int → Int → Prop} (hsetup : setup.Steady)
    (hsound : pos.Sound) (hover : pos.isOver = false) (flavour : Flavour) :
    Children holds (child flavour (node setup flavour 0)) pos (pos.worth (negamax setup 0)) :=
  children_of_answers hsound hover fun _ hm i flips =>
    answers_child (answers_horizon hsetup (hsound.after_spec hover hm).2.1) flavour i flips

/-- The child has its value in the tree unless it is a repetition or worth less than a draw that is
at hand. -/
theorem leads_of_fresh (hsetup : setup.Steady) (hsound : pos.Sound)
    (hfresh : pos.isOver = false →
      (∀ w, w.position = pos → w.saved = saved → isRepetition setup w = false) ∧
        (isPastMoveLimit pos = true → 0 ≤ negamax setup 1 pos))
    (flavour : Flavour) (flips : Bool) : ∃ v, Leads setup flavour 1 pos saved flips v := by
  have hbounded := @Setup.Steady.negamax_within _ hsetup 1 (by decide) pos
  refine ⟨_, leads_of_answers hbounded (fun keys hkey => ?_) flips⟩
  intro alpha beta w hinside hpos hsaved hready
  apply node_answer hsetup flavour (by decide) hinside hpos hready
  intro hover
  obtain ⟨hnone, hdrawn⟩ := hfresh hover
  refine ⟨hnone w hpos hsaved, hdrawn, ?_, fun _ _ => Or.inr ⟨rfl, rfl⟩,
    children_horizon hsetup hsound hover flavour⟩
  rintro e (hmem | ⟨_, heq⟩)
  · exact absurd hmem hkey
  · exact heq

/-! ## Below a draw -/

/-- A position past a limit on quiet moves where the game goes on and which is worth less than the
draw that seems to be at hand. -/
structure Sunk (setup : Setup) (pos : Position) : Prop extends pos.Sound where
  going : pos.isOver = false
  limit : isPastMoveLimit pos = true
  below : negamax setup 1 pos < 0

/-- What the loop over the moves of a sunk position finds above a lower end of zero, or its static
value if it has no move. -/
structure Finds (setup : Setup) (pos : Position) (v : Int) : Prop where
  bounded : -valueLimit ≤ v ∧ v ≤ 0
  stuck : pos.legalMoves = [] → biased (setup.evaluator.value pos) 1 = v
  best : ∀ flavour beta remembered w, 0 < beta → Standing pos w → pos.legalMoves ≠ [] →
    let tried := tryMoves (child flavour (node setup flavour 0)) beta 0 (pos.rankedMoves remembered)
      { alpha := 0 } w
    tried.1.best = v ∧ Unmoved w tried.2

theorem Sunk.exists_finds (h : Sunk setup pos) (hsetup : setup.Steady) :
    ∃ v, Finds setup pos v := by
  have hbounded := @Setup.Steady.negamax_within _ hsetup 1 (by decide) pos
  have hbelow := h.below
  by_cases hmoves : pos.legalMoves = []
  · refine ⟨negamax setup 1 pos, ⟨hbounded.1, Int.le_of_lt hbelow⟩, fun _ => ?_,
      fun _ _ _ _ _ _ hne => absurd hmoves hne⟩
    rw [negamax_of_going h.going, Position.bestWorth_of_stuck hmoves]
    rfl
  · have hplayable := playable_of_sound h.toSound h.going
    have hsoft : ∀ m ∈ pos.legalMoves, Soft valueLimit
        (childValue (horizon setup 0) (pos.flips m)) (pos.after m)
        (pos.worth (negamax setup 0) m) := fun m hm =>
      soft_childValue (soft_horizon hsetup (h.after_spec h.going hm).2.1) (pos.flips m)
    obtain ⟨⟨m, hm, hworth⟩, hmax⟩ := @Position.bestWorth_spec pos (negamax setup 0) hmoves
      (biased (setup.evaluator.value pos) ((1 : Nat) : Int))
    rw [← negamax_of_going h.going] at hworth hmax
    obtain ⟨low, hlow⟩ := exists_lows hsoft
      fun m hm => Int.le_trans (hmax m hm) (Int.le_of_lt hbelow)
    -- the order of the moves does not matter to the greatest of what they give back
    have horder : ∀ remembered, ((pos.rankedMoves remembered).map fun r => low r.move).foldl max
        (-infinite) = (pos.legalMoves.map low).foldl max (-infinite) := by
      intro remembered
      have hperm := (pos.map_move_rankedMoves_perm remembered).map low
      rw [List.map_map] at hperm
      exact hperm.foldl_eq _
    have hranked : ∀ r ∈ pos.rankedMoves .none, r.move ∈ pos.legalMoves :=
      fun r hr => Position.mem_legalMoves_of_ranked hr
    obtain ⟨r, hr, rfl⟩ := Position.exists_ranked hm .none
    obtain ⟨hbetween, _⟩ := greatest_low_spec
      (fun r hr => ⟨(hlow r.move (hranked r hr)).1, (hlow r.move (hranked r hr)).2.1⟩)
      ⟨r, hr, hworth⟩ (neg_infinite_lt hbounded.1)
    rw [horder] at hbetween
    refine ⟨_, ⟨Int.le_trans hbounded.1 hbetween.1, hbetween.2⟩, fun hnil => absurd hnil hmoves, ?_⟩
    intro flavour beta remembered w hbeta hw _
    rw [← horder remembered]
    apply tryMoves_low hplayable hbeta _ (fun r hr => Position.mem_legalMoves_of_ranked hr) rfl
      (by decide) hw 0
    intro m hm
    obtain ⟨hbounds, _, hgives⟩ := hlow m hm
    have hvalue := (hsoft m hm).bounded
    exact ⟨⟨neg_infinite_lt (Int.le_trans hvalue.1 hbounds.1), hbounds.2⟩,
      fun i => failsLow_child hgives hbounds.2 flavour i⟩

/-- A walk to a position over a table that lacks some keys and has entries of one value for the
position. -/
structure Settled (keys : List Key) (pos : Position) (v : Int) (w : Walk) : Prop extends
    Ready (Absent keys) w where
  position : w.position = pos
  own : w.table.All fun e => e.key = pos.state.key → e.value = v

/-- Above an upper end that is positive, the search of a sunk position comes to what the loop over
its moves finds, and all that it records is this value. -/
theorem Sunk.expand_eq (h : Sunk setup pos) (hsetup : setup.Steady) (hfinds : Finds setup pos v)
    (flavour : Flavour) (hkey : pos.state.key ∉ keys) (hbeta : 0 < beta)
    (hw : Settled keys pos v w) :
    let answer := expand setup (child flavour (node setup flavour 0)) 1 0 beta w
    answer.1 = v ∧ answer.2.saved = w.saved ∧ Settled keys pos v answer.2 := by
  obtain ⟨hready, rfl, hown⟩ := hw
  obtain ⟨hcutoff, hopen⟩ := @Table.probe_of_value _ _ _ beta hown hfinds.bounded.2 1
  simp only [expand]
  generalize w.table.probe w.position.state.key 1 0 beta = probe at hcutoff hopen ⊢
  -- the only entry of this key holds the value itself
  cases hsettled : probe.cutoff with
  | some u => exact ⟨hcutoff u hsettled, rfl, hready, rfl, hown⟩
  | none =>
      obtain ⟨halpha, hupper⟩ := hopen hsettled
      rw [halpha, hupper, Position.isEmpty_rankedMoves]
      simp only
      split
      · rename_i hempty
        have hback := hsetup.undisturbed.evaluate (w := w) hready.going
        exact ⟨hfinds.stuck (List.isEmpty_iff.1 hempty), rfl, ⟨hback.going, hready.table⟩, rfl,
          hown⟩
      · rename_i hmoves
        have hne : w.position.legalMoves ≠ [] := by simpa using hmoves
        obtain ⟨hbest, hback⟩ := hfinds.best flavour beta probe.move w hbeta ⟨rfl, hready.going⟩ hne
        have hpicked := tryMoves_picked (child flavour (node setup flavour 0)) beta
          (w.position.rankedMoves probe.move) { alpha := 0 } w 0
        generalize tryMoves (child flavour (node setup flavour 0)) beta 0
          (w.position.rankedMoves probe.move) { alpha := 0 } w = tried at hbest hback hpicked ⊢
        obtain ⟨p, w'⟩ := tried
        simp only at hbest hback hpicked ⊢
        -- what is stored needs a proper best move: a walk that found none would have left the least
        -- value
        have hproper : p.bestMove.isProper = true := by
          rcases hpicked.best with ⟨hnone, _⟩ | ⟨_, r, hr, hmove⟩
          · rw [hnone] at hbest
            have hlow := neg_infinite_lt hfinds.bounded.1
            simp only at hbest
            omega
          · rw [← hmove]
            exact h.isProper_of_mem_legalMoves (by simpa [Position.isOver] using h.going)
              (Position.mem_legalMoves_of_ranked hr)
        have hlimit : -valueLimit ≤ p.best ∧ p.best ≤ valueLimit := by
          have hle : (0 : Int) ≤ valueLimit := by decide
          have hbounds := hfinds.bounded
          omega
        rw [finishNode_of_going hback.going, hback.position, hback.table]
        refine ⟨hbest, hback.saved, ⟨hback.going, ?_⟩, rfl, ?_⟩
        · exact hready.table.save hproper hlimit fun _ hmem => absurd hmem hkey
        · exact hown.save (fun _ he => he) (fun _ _ hold _ _ => hold) fun _ => hbest

theorem Settled.visit (h : Settled keys pos v w) (hsetup : setup.Undisturbed) :
    Settled keys pos v (w.visit setup) :=
  ⟨(h.toReady.visit hsetup).toReady, h.position, h.own⟩

/-- The search of a sunk position is cut off in a window below zero and comes to one value in any
other. -/
theorem Sunk.node_eq (h : Sunk setup pos) (hsetup : setup.Steady) (hfinds : Finds setup pos v)
    (flavour : Flavour) (hkey : pos.state.key ∉ keys) (hw : Settled keys pos v w)
    (hfresh : isRepetition setup w = false) (alpha beta : Int) :
    let answer := node setup flavour 1 alpha beta w
    answer.2.saved = w.saved ∧ Settled keys pos v answer.2 ∧
      answer.1 = if beta ≤ 0 then 0 else v := by
  have hvisit := hw.visit hsetup.undisturbed
  have hend := (hw.toReady.isAtEnd_visit hsetup.undisturbed).trans (hw.position ▸ h.going)
  have hlimit : isPastMoveLimit (w.visit setup).position = true := hw.position ▸ h.limit
  have hnone : isRepetition setup (w.visit setup) = false := hfresh
  simp only [node]
  simp only [hend, hlimit, hnone, Bool.false_eq_true, if_false, if_true, true_and]
  split
  · exact ⟨rfl, hvisit, rfl⟩
  · rename_i hopen
    obtain ⟨hvalue, hsaved, hafter⟩ :=
      h.expand_eq hsetup hfinds flavour hkey (Int.not_le.1 hopen) hvisit
    exact ⟨hsaved, hafter, hvalue⟩

/-- A sunk child of the side that moves at the root comes to one value: a narrow window below zero
makes the search go on with the real one. -/
theorem leads_of_sunk (h : Sunk setup pos) (hsetup : setup.Steady)
    (hfresh : ∀ w, w.position = pos → w.saved = saved → isRepetition setup w = false)
    (flavour : Flavour) : ∃ v, Leads setup flavour 1 pos saved false v := by
  obtain ⟨v, hfinds⟩ := h.exists_finds hsetup
  have hbounded : -valueLimit ≤ v ∧ v ≤ valueLimit := by
    have hle : (0 : Int) ≤ valueLimit := by decide
    have hbounds := hfinds.bounded
    omega
  refine ⟨v, hbounded, ?_⟩
  intro keys alpha w i hkey halpha hpos hsaved hready
  have hnode : ∀ {w} (alpha beta : Int), Settled keys pos v w → w.saved = saved →
      let answer := childValue (node setup flavour 1) false alpha beta w
      answer.2.saved = saved ∧ Settled keys pos v answer.2 ∧
        answer.1 = if beta ≤ 0 then 0 else v := by
    intro w alpha beta hw hsaved
    obtain ⟨hback, hafter, hvalue⟩ := h.node_eq hsetup hfinds flavour hkey hw
      (hfresh w hw.position hsaved) alpha beta
    exact ⟨hback.trans hsaved, hafter, hvalue⟩
  -- what is to be shown, whichever search is the last one
  have hanswer : ∀ {answer : Int × Walk}, answer.2.saved = saved → Settled keys pos v answer.2 →
      answer.1 = v → Answer (Absent keys) alpha infinite v w answer := by
    rintro ⟨u, w'⟩ hback hafter rfl
    have hreturned : Returned (Absent keys) w w' :=
      ⟨hafter.toReady, hafter.position.trans hpos.symm, hback.trans hsaved.symm⟩
    exact hreturned.answer alpha infinite hbounded
  have hstart : Settled keys pos v w := by
    refine ⟨hready.mono fun _ _ _ => List.mem_cons_of_mem _, hpos, ?_⟩
    exact hready.table.absent.mono fun e he hown => absurd (hown ▸ List.mem_cons_self) he
  have hfull : ∀ {w'}, Settled keys pos v w' → w'.saved = saved →
      Answer (Absent keys) alpha infinite v w
        (childValue (node setup flavour 1) false alpha infinite w') := by
    intro w' hw' hback
    obtain ⟨hback', hafter, hvalue⟩ := hnode alpha infinite hw' hback
    exact hanswer hback' hafter (hvalue.trans (if_neg (by decide)))
  simp only [child]
  split
  · simp only [scout]
    obtain ⟨hback, hafter, hvalue⟩ := hnode alpha (alpha + scoutWidth) hstart hsaved
    generalize childValue (node setup flavour 1) false alpha (alpha + scoutWidth) w = first
      at hback hafter hvalue ⊢
    split
    · exact hfull hafter hback
    · rename_i hlast
      apply hanswer hback hafter
      rw [hvalue, if_neg]
      -- a window below zero has given zero, which calls for the real window
      intro hclosed
      have hwidth : scoutWidth = 5 := rfl
      rw [if_pos hclosed] at hvalue
      exact hlast ⟨by omega, by rw [hvalue]; decide, by simp [hafter.going]⟩
  · exact hfull hstart hsaved

/-! ## Any child -/

/-- The child that a legal move of a shallow root leads to comes to one value. -/
theorem exists_leads (hsetup : setup.Steady) (hsound : pos.Sound) (hover : pos.isOver = false)
    {m : Move} (hm : m ∈ pos.legalMoves) (flavour : Flavour) (hd : d ≤ 1) (saved : List State) :
    ∃ v, Leads setup flavour d (pos.after m) saved (pos.flips m) v := by
  obtain ⟨_, hnext, _⟩ := hsound.after_spec hover hm
  obtain rfl | rfl : d = 0 ∨ d = 1 := by omega
  · exact leads_horizon hsetup hnext flavour saved (pos.flips m)
  · cases hend : (pos.after m).isOver with
    | true =>
        exact leads_of_fresh hsetup hnext (fun hgoing => by simp [hend] at hgoing) flavour _
    | false =>
        -- whether the child is a repetition depends on the states before it alone
        let here : Walk := { position := pos.after m, saved := saved, table := .new 1 1 }
        have hsame : ∀ w, w.position = pos.after m → w.saved = saved →
            isRepetition setup w = isRepetition setup here :=
          fun w hpos hsaved => isRepetition_congr (w := here) hpos hsaved
        cases hrepetition : isRepetition setup here with
        | true =>
            exact leads_of_repetition hsetup.undisturbed hend
              (fun w hpos hsaved => (hsame w hpos hsaved).trans hrepetition) flavour _
        | false =>
            have hfresh := fun w hpos hsaved => (hsame w hpos hsaved).trans hrepetition
            by_cases hsunk :
              isPastMoveLimit (pos.after m) = true ∧ negamax setup 1 (pos.after m) < 0
            · rw [hsound.flips_of_isPastMoveLimit hover hm hend hsunk.1]
              exact leads_of_sunk ⟨hnext, hend, hsunk.1, hsunk.2⟩ hsetup hfresh flavour
            · exact leads_of_fresh hsetup hnext
                (fun _ => ⟨hfresh, fun hlimit => Int.not_lt.1 fun hlt => hsunk ⟨hlimit, hlt⟩⟩)
                flavour _

/-! ## The root -/

/-- A root each of whose moves leads to a child that comes to one value. -/
structure ShallowRoot (setup : Setup) (flavour : Flavour) (top : Position) (saved : List State)
    (d : Nat) (value : Move → Int) : Prop where
  steady : setup.Steady
  sound : top.Sound
  unfinished : top.isOver = false
  leads : ∀ m ∈ top.legalMoves,
    Leads setup flavour d (top.after m) (top.state :: saved) (top.flips m) (value m)

theorem exists_shallowRoot (hsetup : setup.Steady) (hsound : pos.Sound) (hover : pos.isOver = false)
    (flavour : Flavour) (hd : d ≤ 1) (saved : List State) :
    ∃ value, ShallowRoot setup flavour pos saved d value := by
  have hvalue : ∀ m, ∃ v, m ∈ pos.legalMoves →
      Leads setup flavour d (pos.after m) (pos.state :: saved) (pos.flips m) v := by
    intro m
    by_cases hm : m ∈ pos.legalMoves
    · obtain ⟨v, hv⟩ := exists_leads hsetup hsound hover hm flavour hd (pos.state :: saved)
      exact ⟨v, fun _ => hv⟩
    · exact ⟨0, fun h => absurd h hm⟩
  obtain ⟨value, hleads⟩ := Classical.skolem.1 hvalue
  exact ⟨value, hsetup, hsound, hover, hleads⟩

/-- A walk at a root, over a table that lacks some keys. -/
structure Fresh (keys : List Key) (top : Position) (saved : List State) (w : Walk) : Prop extends
    Ready (Absent keys) w where
  position : w.position = top
  saved : w.saved = saved

/-- A legal move of a shallow root is played, the child searched, and the move taken back. -/
theorem ShallowRoot.step {value : Move → Int} (h : ShallowRoot setup flavour pos saved d value)
    {m : Move} (hm : m ∈ pos.legalMoves) (hkey : (pos.after m).state.key ∉ keys)
    (halpha : alpha < infinite) (hw : Fresh ((pos.after m).state.key :: keys) pos saved w)
    (i : Nat) :
    ∃ played, w.play? m = some (pos.flips m, played) ∧
      Within alpha infinite
        (child flavour (node setup flavour d) i (pos.flips m) alpha infinite played).1 (value m) ∧
      Fresh keys pos saved
        (child flavour (node setup flavour d) i (pos.flips m) alpha infinite
          played).2.takeBack := by
  obtain ⟨hready, rfl, rfl⟩ := hw
  obtain ⟨haccepted, _, hvariant⟩ := h.sound.after_spec h.unfinished hm
  refine ⟨_, play?_eq haccepted, ?_⟩
  have hanswer := (h.leads m hm).answers i hkey halpha
    (w := { w with position := w.position.after m, saved := w.position.state :: w.saved })
    rfl rfl ⟨hready.going, hready.table⟩
  have hback := hanswer.returned.of_played hvariant
  exact ⟨hanswer.toWithin, hback.toReady, hback.position, hback.saved⟩

end Search

end Morris
