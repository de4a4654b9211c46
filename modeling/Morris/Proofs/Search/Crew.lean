import Mathlib.Data.List.Perm.Basic
import Morris.Proofs.Search.Interleaving
import Morris.Proofs.Search.Shallow
import Morris.Proofs.Search.Workers

/-!
# Workers at the same time

What a worker of a shallow root finds does not depend on what the others write in the meantime: it
looks up the keys of its own children only, and as long as these are different from the keys of all
other children, nobody else writes under them. So a run of the workers, in whatever order they make
their accesses, ends with the value of every move, each sent once (`Search.Gathers.values_perm`).

`Search.Delivers` says of a task which keys it may still write under and which values it has still
to send. An access of one task leaves this as it is for the others (`Search.Crewed.turn`); the
values that have arrived and those still to send stay all of them.
-/

set_option autoImplicit false

namespace Morris.Search

open Table (Absent)

variable {setup : Setup} {flavour : Flavour} {d : Nat} {pos top : Position} {saved : List State}
  {flips : Bool} {key : Key} {keys : List Key} {v alpha beta : Int} {w : Walk}

/-! ## Accesses -/

/-- A table without entries for some keys. -/
def Unseen (keys : List Key) (t : Table) : Prop := t.Truthful (Absent keys) valueLimit

theorem Unseen.mono {keys' : List Key} {t : Table} (h : Unseen keys t) (hless : keys' ⊆ keys) :
    Unseen keys' t :=
  Table.Truthful.mono h fun _ _ _ hmem => hless hmem

/-- An access that writes under one key, if at all, and sends nothing. -/
def Records (key : Key) (act : Shared → Shared) : Prop :=
  ∀ s, (act s).arrived = s.arrived ∧
    ∀ keys, key ∉ keys → Unseen keys s.table → Unseen keys (act s).table

theorem records_save {move : Move} (hproper : move.isProper = true)
    (hbounded : -valueLimit ≤ v ∧ v ≤ valueLimit) (key : Key) (depth : Int) (bound : Bound) :
    Records key fun s => { s with table := s.table.save key depth (some bound) v move } :=
  fun _ => ⟨rfl, fun _ hkey hunseen =>
    Table.Truthful.save hunseen hproper hbounded fun _ hmem => absurd hmem hkey⟩

/-! ## Searches of children -/

/-- A task that looks up a table without some keys, one of which is its own, that may write under
this one at the end, and that comes to a good result. -/
inductive Yields {α : Type} (key : Key) (keys : List Key) (good : α → Prop) : Task α → Prop
  | done {a : α} : good a → Yields key keys good (.done a)
  | look {next : Shared → Task α} :
      (∀ s, Unseen (key :: keys) s.table → Yields key keys good (next s)) →
      Yields key keys good (.access id next)
  | record {act : Shared → Shared} {next : Shared → Task α} : Records key act →
      (∀ s, Unseen keys s.table → ∃ a, next s = .done a ∧ good a) →
      Yields key keys good (.access act next)

theorem Yields.map {α β : Type} {good : α → Prop} {good' : β → Prop} {t : Task α} {f : α → β}
    (h : Yields key keys good t) (hgood : ∀ a, good a → good' (f a)) :
    Yields key keys good' (t.bind fun a => .done (f a)) := by
  induction h with
  | done ha => exact .done (hgood _ ha)
  | look _ ih => exact .look ih
  | record hact hnext =>
      refine .record hact fun s hs => ?_
      obtain ⟨a, ha, hgoodA⟩ := hnext s hs
      exact ⟨f a, by rw [ha]; rfl, hgood a hgoodA⟩

/-- A search of a node looks at the table if it goes further than the node itself. -/
theorem node_cases (setup : Setup) (flavour : Flavour) (d : Nat) (alpha beta : Int) (w : Walk) :
    Task.node setup flavour (d + 1) alpha beta w =
        .done (node setup flavour (d + 1) alpha beta w) ∨
      ∃ low, w.position.isOver = false ∧
        Task.node setup flavour (d + 1) alpha beta w = (.access id fun s =>
          Task.expand setup (Task.child flavour (Task.node setup flavour d)) ((d : Int) + 1) low
            beta { w.visit setup with table := s.table }) ∧
        ∀ table, node setup flavour (d + 1) alpha beta { w with table := table } =
          expand setup (child flavour (node setup flavour d)) ((d : Int) + 1) low beta
            { w.visit setup with table := table } := by
  by_cases hend : (w.visit setup).isAtEnd = true
  · left
    simp only [Task.node, node, if_pos hend]
  · by_cases hclosed : isPastMoveLimit (w.visit setup).position = true ∧
        beta ≤ if isPastMoveLimit (w.visit setup).position = true then 0 else alpha
    · left
      simp only [Task.node, node, if_neg hend]
      rw [if_pos hclosed, if_pos hclosed]
    · by_cases hrepetition : isRepetition setup (w.visit setup) = true
      · left
        simp only [Task.node, node, if_neg hend]
        rw [if_neg hclosed, if_neg hclosed, if_pos hrepetition, if_pos hrepetition]
      · right
        have hover : w.position.isOver = false := unfinished_of_visit hend
        refine ⟨if isPastMoveLimit w.position = true then 0 else alpha, hover, ?_, fun table => ?_⟩
        · simp only [Task.node, if_neg hend]
          rw [if_neg hclosed, if_neg hrepetition]
          rfl
        · -- the table plays no part before it is looked up
          have hend' : ¬(({ w with table := table } : Walk).visit setup).isAtEnd = true := hend
          have hclosed' :
              ¬(isPastMoveLimit (({ w with table := table } : Walk).visit setup).position = true ∧
                beta ≤ if isPastMoveLimit
                  (({ w with table := table } : Walk).visit setup).position = true then 0
                else alpha) :=
            hclosed
          have hrepetition' :
              ¬isRepetition setup (({ w with table := table } : Walk).visit setup) = true :=
            hrepetition
          simp only [node, if_neg hend']
          rw [if_neg hclosed', if_neg hrepetition']
          rfl

/-- What the search of a node comes to is found by the task, whatever the others write, if it is one
value over any table without some keys. -/
structure Comes (setup : Setup) (flavour : Flavour) (d : Nat) (pos : Position) (saved : List State)
    (keys : List Key) (alpha beta v : Int) : Prop where
  fresh : pos.state.key ∉ keys
  bounded : -valueLimit ≤ v ∧ v ≤ valueLimit
  proper : pos.isOver = false → ∀ m ∈ pos.legalMoves, m.isProper = true
  comes : ∀ {w}, Fresh (pos.state.key :: keys) pos saved w →
    (node setup flavour d alpha beta w).1 = v ∧
      Fresh keys pos saved (node setup flavour d alpha beta w).2

theorem Fresh.relook (h : Fresh keys pos saved w) {t : Table} (ht : Unseen keys t) :
    Fresh keys pos saved { w with table := t } :=
  ⟨⟨h.going, ht⟩, h.position, h.saved⟩

/-- Recording a node keeps the table without the other keys. -/
theorem yields_finishNode {depth : Int} {p : Progress}
    (hbounded : -valueLimit ≤ v ∧ v ≤ valueLimit)
    (hproper : -infinite < p.best → p.bestMove.isProper = true)
    (hvalue : (finishNode setup depth alpha beta p w).1 = v)
    (hfresh : Fresh keys pos saved (finishNode setup depth alpha beta p w).2) :
    Yields pos.state.key keys (fun answer => answer.1 = v ∧ Fresh keys pos saved answer.2)
      (Task.finishNode setup depth alpha beta p w) := by
  have hgoing : w.stopped = false := by
    apply eq_false_of_ne_true
    intro hstopped
    have hgoes := hfresh.going
    rw [finishNode_of_stopped hstopped] at hgoes
    cases hgoes
  rw [finishNode_of_going hgoing] at hvalue hfresh
  obtain ⟨_, rfl, rfl⟩ := hfresh
  have hbest : p.best = v := hvalue
  simp only [Task.finishNode, hgoing, Bool.false_eq_true, if_false]
  have hmove := hproper (hbest ▸ neg_infinite_lt hbounded.1)
  refine .record (records_save hmove (hbest ▸ hbounded) w.position.state.key depth _)
    fun s hs => ⟨_, rfl, hbest, ⟨rfl, hs⟩, rfl, rfl⟩

/-- The task of a node one step above the horizon comes to what its search comes to. -/
theorem Comes.yields_one (h : Comes setup flavour 1 pos saved keys alpha beta v)
    (hw : Fresh (pos.state.key :: keys) pos saved w) :
    Yields pos.state.key keys (fun answer => answer.1 = v ∧ Fresh keys pos saved answer.2)
      (Task.node setup flavour 1 alpha beta w) := by
  rcases node_cases setup flavour 0 alpha beta w with hdone | ⟨low, hover, htask, hnode⟩
  · rw [hdone]
    exact .done (h.comes hw)
  · rw [htask]
    refine .look fun s hs => ?_
    have hanswer := h.comes (hw.relook hs)
    rw [hnode] at hanswer
    have hposition : (w.visit setup).position = pos := hw.position
    -- from here on the table is the one that the look-up has found
    generalize hlooked : ({ w.visit setup with table := s.table } : Walk) = looked at hanswer ⊢
    have hpos : looked.position = pos := by rw [← hlooked]; exact hposition
    simp only [Task.expand, expand] at hanswer ⊢
    generalize looked.table.probe looked.position.state.key (((0 : Nat) : Int) + 1) low beta = probe
      at hanswer ⊢
    cases hcutoff : probe.cutoff with
    | some u =>
        rw [hcutoff] at hanswer
        exact .done hanswer
    | none =>
        rw [hcutoff] at hanswer
        simp only at hanswer ⊢
        split
        · rename_i hempty
          rw [if_pos hempty] at hanswer
          exact .done hanswer
        · rename_i hmoves
          rw [if_neg hmoves] at hanswer
          -- the searches at the horizon make no access
          have hhorizon : ∀ alpha beta w, Task.node setup flavour 0 alpha beta w =
              .done (node setup flavour 0 alpha beta w) := fun _ _ _ => rfl
          rw [Task.lawful_done.tryMoves (Task.lawful_done.child hhorizon flavour)]
          have hpicked := tryMoves_picked (child flavour (node setup flavour 0)) probe.beta
            (looked.position.rankedMoves probe.move) { alpha := probe.alpha } looked 0
          generalize tryMoves (child flavour (node setup flavour 0)) probe.beta 0
            (looked.position.rankedMoves probe.move) { alpha := probe.alpha } looked = tried
            at hanswer hpicked ⊢
          refine yields_finishNode h.bounded (fun hbetter => ?_) hanswer.1 hanswer.2
          rcases hpicked.best with ⟨hnone, _⟩ | ⟨_, r, hr, hmove⟩
          · exact absurd hnone (Int.ne_of_gt hbetter)
          · rw [← hmove]
            exact h.proper (hw.position ▸ hover) _
              (hpos ▸ Position.mem_legalMoves_of_ranked hr)

/-- A search below a shallow root comes to what its task comes to. -/
theorem Comes.yields (h : Comes setup flavour d pos saved keys alpha beta v) (hd : d ≤ 1)
    (hw : Fresh (pos.state.key :: keys) pos saved w) :
    Yields pos.state.key keys (fun answer => answer.1 = v ∧ Fresh keys pos saved answer.2)
      (Task.node setup flavour d alpha beta w) := by
  obtain rfl | rfl : d = 0 ∨ d = 1 := by omega
  · exact .done (h.comes hw)
  · exact h.yields_one hw

theorem Task.descend_eq_node (setup : Setup) (flavour : Flavour) (d : Nat) :
    Task.descend setup flavour (((d + 1 : Nat) : Int) - 1) = Task.node setup flavour d := by
  have hdepth : ((d + 1 : Nat) : Int) - 1 = d := by omega
  rw [hdepth]
  funext alpha beta w
  rw [Task.descend, Int.toNat_natCast]
  cases d with
  | zero => rfl
  | succ d => rw [if_neg (by omega)]

/-- The full window turned round is the full window. -/
theorem childValue_full (search : Searcher) (flips : Bool) (w : Walk) :
    childValue search flips (-infinite) infinite w =
      let answer := search (-infinite) infinite w
      (if flips then -answer.1 else answer.1, answer.2) := by
  cases flips <;> rfl

/-- Searched with the full window, a child comes to its value for the parent. -/
theorem Leads.yields (h : Leads setup flavour d pos saved flips v) (hsound : pos.Sound) (hd : d ≤ 1)
    (hkey : pos.state.key ∉ keys) (hw : Fresh (pos.state.key :: keys) pos saved w) :
    Yields pos.state.key keys (fun answer => answer.1 = v ∧ Fresh keys pos saved answer.2)
      (Task.childValue (Task.descend setup flavour (((d + 1 : Nat) : Int) - 1)) flips (-infinite)
        infinite w) := by
  have hcomes : Comes setup flavour d pos saved keys (-infinite) infinite
      (if flips then -v else v) := by
    have hbounded := h.bounded
    refine ⟨hkey, by split <;> omega, fun hover m hm =>
      hsound.isProper_of_mem_legalMoves (by simpa [Position.isOver] using hover) hm, ?_⟩
    intro w hw
    have hanswer := h.answers 0 hkey (by decide : -infinite < infinite) hw.position hw.saved
      hw.toReady
    have hchild : child flavour (node setup flavour d) 0 flips =
        childValue (node setup flavour d) flips := by simp [child]
    rw [hchild, childValue_full] at hanswer
    have hvalue := hanswer.eq_of_full
    have hback := hanswer.returned
    refine ⟨?_, hback.toReady, hback.position.trans hw.position, hback.saved.trans hw.saved⟩
    cases flips with
    | false => exact hvalue
    | true => exact (Int.neg_eq_comm.1 hvalue).symm
  have hnode := hcomes.yields hd hw
  rw [Task.descend_eq_node]
  cases flips with
  | false => exact hnode
  | true => exact hnode.map fun answer hgood => ⟨by rw [hgood.1]; simp, hgood.2⟩

/-! ## Workers -/

/-- A task that may write under some keys, each at most once, and has some values to send, in this
order, as long as it finds the table without the keys that it has not written under. -/
inductive Delivers : List Key → List MoveValue → Task Walk → Prop
  | done {w : Walk} : w.stopped = false → Delivers [] [] (.done w)
  | look {keys : List Key} {values : List MoveValue} {next : Shared → Task Walk} :
      (∀ s, Unseen keys s.table → Delivers keys values (next s)) →
      Delivers keys values (.access id next)
  | record {key : Key} {keys : List Key} {values : List MoveValue} {act : Shared → Shared}
      {next : Shared → Task Walk} : Records key act →
      (∀ s, Unseen keys s.table → Delivers keys values (next s)) →
      Delivers (key :: keys) values (.access act next)
  | send {keys : List Key} {v : MoveValue} {values : List MoveValue} {next : Shared → Task Walk} :
      (∀ s, Unseen keys s.table → Delivers keys values (next s)) →
      Delivers keys (v :: values) (.access (fun s => { s with arrived := s.arrived ++ [v] }) next)
  | drop {key : Key} {keys : List Key} {values : List MoveValue} {t : Task Walk} :
      Delivers keys values t → Delivers (key :: keys) values t

/-- A worker goes on with its next move when the search of a child is done. -/
theorem Yields.bind {α : Type} {good : α → Prop} {t : Task α} {f : α → Task Walk}
    {values : List MoveValue} (h : Yields key keys good t)
    (hnext : ∀ a, good a → Delivers keys values (f a)) :
    Delivers (key :: keys) values (t.bind f) := by
  induction h with
  | done ha => exact .drop (hnext _ ha)
  | look _ ih => exact .look ih
  | record hact hends =>
      refine .record hact fun s hs => ?_
      obtain ⟨a, ha, hgood⟩ := hends s hs
      rw [ha]
      exact hnext a hgood

/-- A numbered move with its value for the root. -/
def found (value : Move → Int) (x : Nat × Move) : MoveValue := ⟨x.1, x.2, value x.2⟩

/-- A worker of a shallow root sends the values of its moves. -/
theorem ShallowRoot.delivers {value : Move → Int} (h : ShallowRoot setup flavour top saved d value)
    (hd : d ≤ 1) {moves : List (Nat × Move)} (hmoves : ∀ x ∈ moves, x.2 ∈ top.legalMoves)
    (hkeys : (moves.map fun x => (top.after x.2).state.key).Nodup)
    (hw : Fresh (moves.map fun x => (top.after x.2).state.key) top saved w) :
    Delivers (moves.map fun x => (top.after x.2).state.key) (moves.map (found value))
      (Task.workThrough setup flavour ((d + 1 : Nat) : Int) moves w) := by
  -- along the dealt moves: each leaves the table fresh for the keys of those after it
  induction moves generalizing w with
  | nil => exact .done hw.going
  | cons x rest ih =>
      obtain ⟨i, m⟩ := x
      obtain ⟨hkey, hrest⟩ := List.nodup_cons.1 hkeys
      have hm := hmoves (i, m) List.mem_cons_self
      obtain ⟨haccepted, hsound, hvariant⟩ := h.sound.after_spec h.unfinished hm
      have hplay := play?_eq (w := w) (m := m) (by rw [hw.position]; exact haccepted)
      have hplayed : Fresh ((top.after m).state.key :: rest.map fun x => (top.after x.2).state.key)
          (top.after m) (top.state :: saved)
          { w with position := w.position.after m, saved := w.position.state :: w.saved } := by
        obtain ⟨hready, rfl, rfl⟩ := hw
        exact ⟨⟨hready.going, hready.table⟩, rfl, rfl⟩
      have hflips : w.position.flips m = top.flips m := by rw [hw.position]
      rw [Task.workThrough, if_neg (by simp [hw.going]), hplay]
      simp only [hflips]
      refine ((h.leads m hm).yields hsound hd hkey hplayed).bind ?_
      rintro ⟨v, w'⟩ ⟨hv, hfresh⟩
      -- after the move is taken back the walk stands at the root again, with one key spent
      have hback : Fresh (rest.map fun x => (top.after x.2).state.key) top saved w'.takeBack := by
        rw [takeBack_eq ((congrArg Position.variant hfresh.position).trans hvariant) hfresh.saved]
        exact ⟨⟨hfresh.going, hfresh.table⟩, rfl, rfl⟩
      simp only at hv ⊢
      rw [if_neg (by simp [hback.going]), hv]
      exact .send fun _ _ => ih (fun y hy => hmoves y (List.mem_cons_of_mem _ hy)) hrest hback

/-- What an access of a task does: it may write under a key that is given up with it, it sends the
values that are then no longer to be sent, and the task has the others still to deliver. -/
structure Turned (own : List Key) (values : List MoveValue) (s after : Shared) (t : Task Walk)
    (own' : List Key) (sent values' : List MoveValue) : Prop where
  keys : own'.Sublist own
  values : values = sent ++ values'
  arrived : after.arrived = s.arrived ++ sent
  unseen : ∀ keys : List Key, (∀ k ∈ keys, k ∈ own → k ∈ own') → Unseen keys s.table →
    Unseen keys after.table
  delivers : Delivers own' values' t

theorem Delivers.turn {own : List Key} {values : List MoveValue} {act : Shared → Shared}
    {next : Shared → Task Walk} (h : Delivers own values (.access act next)) (hown : own.Nodup)
    {s : Shared} (hs : Unseen own s.table) :
    ∃ own' sent values', Turned own values s (act s) (next (act s)) own' sent values' := by
  generalize htask : Task.access act next = t at h
  -- the keys of positions that the task will not come to are dropped until it makes its access
  induction h with
  | done _ => cases htask
  | @look keys values next' hnext _ =>
      cases htask
      exact ⟨keys, [], values, .refl keys, rfl, (List.append_nil _).symm, fun _ _ h => h,
        hnext s hs⟩
  | @record key keys values act' next' hact hnext _ =>
      cases htask
      obtain ⟨hkey, _⟩ := List.nodup_cons.1 hown
      obtain ⟨harrived, hunseen⟩ := hact s
      refine ⟨keys, [], values, List.sublist_cons_self key keys, rfl,
        harrived.trans (List.append_nil _).symm, fun others hothers h => hunseen others ?_ h,
        hnext _ (hunseen keys hkey (hs.mono (List.subset_cons_self key keys)))⟩
      exact fun hmem => hkey (hothers key hmem List.mem_cons_self)
  | @send keys v values next' hnext _ =>
      cases htask
      exact ⟨keys, [v], values, .refl keys, rfl, rfl, fun _ _ h => h, hnext _ hs⟩
  | @drop key keys values t' _ ih =>
      obtain ⟨own', sent, values', hturned⟩ := ih (List.nodup_cons.1 hown).2
        (hs.mono (List.subset_cons_self key keys)) htask
      exact ⟨own', sent, values', hturned.keys.cons key, hturned.values, hturned.arrived,
        fun others hothers => hturned.unseen others fun k hk hmem =>
          hothers k hk (List.mem_cons_of_mem key hmem), hturned.delivers⟩

/-- A worker at its end has sent everything. -/
theorem Delivers.ended {values : List MoveValue} (h : Delivers keys values (.done w)) :
    values = [] ∧ w.stopped = false := by
  generalize htask : Task.done w = t at h
  induction h with
  | done hgoing =>
      cases htask
      exact ⟨rfl, hgoing⟩
  | look _ _ => cases htask
  | record _ _ _ => cases htask
  | send _ _ => cases htask
  | drop _ ih => exact ih htask

/-! ## Crews -/

/-- A worker of a crew, with the keys that it may still write under and the values that it has still
to send. -/
structure Hand where
  keys : List Key
  values : List MoveValue
  task : Task Walk

/-- Where a run of a crew stands: every worker delivers, no two of them write under the same key,
the table lacks the keys that are still to come, and what has arrived and what is still to be sent
are all the values. -/
structure Crewed (all : List MoveValue) (hands : List Hand) (s : Shared) : Prop where
  delivers : ∀ x ∈ hands, Delivers x.keys x.values x.task
  distinct : (hands.flatMap Hand.keys).Nodup
  unseen : Unseen (hands.flatMap Hand.keys) s.table
  values : (s.arrived ++ hands.flatMap Hand.values).Perm all

/-- An access of one worker leaves the crew where a crew may stand. -/
theorem Crewed.turn {all : List MoveValue} {before after : List Hand} {x : Hand}
    {act : Shared → Shared} {next : Shared → Task Walk} {s : Shared}
    (h : Crewed all (before ++ x :: after) s) (hx : x.task = .access act next) :
    ∃ x', x'.task = next (act s) ∧ Crewed all (before ++ x' :: after) (act s) := by
  have hdistinct := h.distinct
  simp only [List.flatMap_append, List.flatMap_cons] at hdistinct
  obtain ⟨_, hrest, hapart⟩ := List.nodup_append.1 hdistinct
  obtain ⟨hown, _, hapart'⟩ := List.nodup_append.1 hrest
  have hunseen := h.unseen
  simp only [List.flatMap_append, List.flatMap_cons] at hunseen
  have hdelivers := h.delivers x (List.mem_append_right before List.mem_cons_self)
  rw [hx] at hdelivers
  obtain ⟨own', sent, values', hturned⟩ := hdelivers.turn hown
    (hunseen.mono fun k hk => List.mem_append_right _ (List.mem_append_left _ hk))
  have hless : (before.flatMap Hand.keys ++ (own' ++ after.flatMap Hand.keys)).Sublist
      (before.flatMap Hand.keys ++ (x.keys ++ after.flatMap Hand.keys)) :=
    (hturned.keys.append_right _).append_left _
  refine ⟨⟨own', values', next (act s)⟩, rfl, ?_, ?_, ?_, ?_⟩
  · intro y hy
    rcases List.mem_append.1 hy with hbefore | hmem
    · exact h.delivers y (List.mem_append_left _ hbefore)
    · rcases List.mem_cons.1 hmem with rfl | hafter
      · exact hturned.delivers
      · exact h.delivers y (List.mem_append_right before (List.mem_cons_of_mem x hafter))
  · simp only [List.flatMap_append, List.flatMap_cons]
    exact hdistinct.sublist hless
  · simp only [List.flatMap_append, List.flatMap_cons]
    refine hturned.unseen _ ?_ (hunseen.mono hless.subset)
    -- the keys of the others are none of the worker's own
    intro k hk hmem
    rcases List.mem_append.1 hk with hbefore | hk
    · exact absurd rfl (hapart k hbefore k (List.mem_append_left _ hmem))
    · rcases List.mem_append.1 hk with hleft | hafter
      · exact hleft
      · exact absurd rfl (hapart' k hmem k hafter)
  · have hvalues := h.values
    simp only [List.flatMap_append, List.flatMap_cons, hturned.values, hturned.arrived] at hvalues ⊢
    refine List.Perm.trans ?_ hvalues
    simp only [List.append_assoc]
    exact (List.perm_append_comm_assoc _ _ _).append_left _

/-- A run of a crew ends with all the values, and with walks that are not stopped. -/
theorem Interleaved.arrived_perm {tasks : List (Task Walk)} {s last : Shared} {ends : List Walk}
    (h : Interleaved tasks s ends last) {all : List MoveValue} {hands : List Hand}
    (hhands : hands.map Hand.task = tasks) (hcrew : Crewed all hands s) :
    last.arrived.Perm all ∧ ∀ ended ∈ ends, ended.stopped = false := by
  induction h generalizing hands with
  | ended ends s =>
      have hnone : hands.flatMap Hand.values = [] := by
        rw [List.flatMap_eq_nil_iff]
        intro x hx
        obtain ⟨ended, _, htask⟩ := List.mem_map.1 (hhands ▸ List.mem_map_of_mem hx)
        exact (htask ▸ hcrew.delivers x hx).ended.1
      refine ⟨by simpa [hnone] using hcrew.values, fun ended hended => ?_⟩
      obtain ⟨x, hx, htask⟩ := List.mem_map.1 (hhands ▸ List.mem_map_of_mem hended)
      exact (htask ▸ hcrew.delivers x hx).ended.2
  -- one hand makes its access, and the crew is again one
  | turn _ ih =>
      obtain ⟨before, rest, rfl, hbefore, hrest⟩ := List.map_eq_append_iff.1 hhands
      obtain ⟨x, after, rfl, hx, hafter⟩ := List.map_eq_cons_iff.1 hrest
      obtain ⟨x', htask, hnext⟩ := hcrew.turn hx
      exact ih (by simp [hbefore, hafter, htask]) hnext

/-! ## All workers -/

/-- Whatever the order in which the workers of a shallow root make their accesses, the value of
every move arrives. -/
theorem Gathers.values_perm {value : Move → Int} (h : ShallowRoot setup flavour top saved d value)
    (hd : d ≤ 1) {moves : List (Nat × Move)} (hmoves : ∀ x ∈ moves, x.2 ∈ top.legalMoves)
    (hkeys : (moves.map fun x => (top.after x.2).state.key).Nodup) {workers : Nat}
    (hworkers : 0 < workers)
    (hw : Fresh (moves.map fun x => (top.after x.2).state.key) top saved w)
    {gathered : List MoveValue × Walk}
    (hgathers : Gathers setup flavour ((d + 1 : Nat) : Int) moves workers w gathered) :
    gathered.1.Perm (moves.map (found value)) ∧ gathered.2.stopped = false := by
  obtain ⟨evaluations, ends, last, count, hruns, rfl⟩ := hgathers
  have hkeysPerm := dealt_perm hworkers moves fun x => (top.after x.2).state.key
  have hvaluesPerm := dealt_perm hworkers moves (found value)
  -- each worker is a hand with the keys and the values of the moves dealt to it
  let hand : Nat → Hand := fun k =>
    { keys := (moves.filter fun x => x.1 % workers == k).map fun x => (top.after x.2).state.key
      values := (moves.filter fun x => x.1 % workers == k).map (found value)
      task := worker setup flavour ((d + 1 : Nat) : Int) moves workers w (evaluations k) k }
  have hcrew : Crewed (moves.map (found value)) ((List.range workers).map hand)
      { table := w.table } := by
    refine ⟨?_, ?_, ?_, ?_⟩
    · intro x hx
      obtain ⟨k, hk, rfl⟩ := List.mem_map.1 hx
      have hsub : ((moves.filter fun x => x.1 % workers == k).map
          fun x => (top.after x.2).state.key).Sublist
            (moves.map fun x => (top.after x.2).state.key) :=
        (List.filter_sublist (l := moves)).map _
      refine .look fun s hs => h.delivers hd (fun x hx => hmoves x (List.mem_filter.1 hx).1)
        (hkeys.sublist hsub) ⟨⟨hw.going, hs⟩, hw.position, hw.saved⟩
    · rw [List.flatMap_map]
      exact hkeysPerm.nodup_iff.2 hkeys
    · rw [List.flatMap_map]
      exact Unseen.mono hw.table hkeysPerm.subset
    · rw [List.flatMap_map]
      exact hvaluesPerm
  obtain ⟨harrived, hgoing⟩ := hruns.arrived_perm (by rw [List.map_map]; rfl) hcrew
  exact ⟨harrived, by simpa using hgoing⟩

end Morris.Search
