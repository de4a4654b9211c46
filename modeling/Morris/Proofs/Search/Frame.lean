import Morris.Proofs.Search.Walk

/-!
# Searches come back

Whatever the position, whatever the evaluator answers, whatever the table holds and whether or not
it is stopped midway, a search ends in the position in which it began, and what it has written into
the table below the root is of less depth than the root. `Search.Back` says so for a property of
entries: the position and the saved states are the same afterwards, and if every entry of the table
had the property, every entry still has it. The property may be any that shallow entries have and
that survives a borrowed move (`Table.Tolerant`). `comesBack_node` is the statement for the searches
below the root. It is the case of `Search.Framing`, which carries any relation between the walks
before and after through a search; that a search goes on if nothing stops it is another one.
`tryMoves_picked` says which moves the loop over the moves of a node can come up with.
-/

set_option autoImplicit false

namespace Morris

/-! ## Properties of entries -/

namespace Table

/-- Every entry of a bucket has a property. -/
def Bucket.All (P : Entry → Prop) (b : Bucket) : Prop := ∀ slot e, b.get slot = some e → P e

/-- Every entry of a table has a property. -/
def All (P : Entry → Prop) (t : Table) : Prop :=
  ∀ (address : Nat × Nat) (b : Bucket), t.stored[address]? = some b → b.All P

/-- An entry with one property that borrows the move of another entry of its key has the other. -/
def Borrows (P Q : Entry → Prop) : Prop :=
  ∀ old new : Entry, P old → new.key = old.key → old.move.isProper = false →
    Q { old with move := new.move }

/-- A property of all entries of less than some depth that survives a borrowed move. -/
structure Tolerant (P : Entry → Prop) (depth : Int) : Prop where
  shallow : ∀ e : Entry, e.depth < depth → P e
  borrows : Borrows P P

variable {P Q : Entry → Prop}

theorem Bucket.all_empty : ({} : Bucket).All P := by
  intro slot e he
  cases slot <;> cases he

/-- Writing an entry of a kind keeps all entries of that kind. -/
theorem Bucket.All.set {b : Bucket} (h : b.All P) (slot : Slot) {new : Entry} (hnew : P new) :
    (b.set slot new).All P := by
  intro other e he
  cases slot <;> cases other
  case first.first =>
    cases he
    exact hnew
  case second.second =>
    cases he
    exact hnew
  case first.second => exact h .second e he
  case second.first => exact h .first e he

/-- Whatever becomes of an entry that is offered to a bucket. -/
theorem Bucket.All.offer {b : Bucket} (h : b.All P) (hweaker : ∀ e, P e → Q e)
    (hborrows : Borrows P Q) {new : Entry} (hnew : Q new) : (b.offer new).All Q := by
  have hkept : b.All Q := fun slot e he => hweaker e (h slot e he)
  unfold Bucket.offer
  simp only
  split
  · exact hkept.set _ hnew
  · rename_i old hold
    split
    · exact hkept.set _ hnew
    · split
      · rename_i hcond
        exact hkept.set _ (hborrows old new (h _ _ hold) hcond.1.symm (by simpa using hcond.2.2))
      · exact hkept

theorem all_of_stored_eq_empty {t : Table} (h : t.stored = {}) : t.All P := by
  intro address b hb
  rw [h, Std.HashMap.getElem?_empty] at hb
  cases hb

theorem All.mono {t : Table} (h : t.All P) (hweaker : ∀ e, P e → Q e) : t.All Q :=
  fun address b hb slot e he => hweaker e (h address b hb slot e he)

theorem All.bucket {t : Table} (h : t.All P) (address : Nat × Nat) :
    (t.stored[address]?.getD {}).All P := by
  cases hb : t.stored[address]? with
  | none => exact Bucket.all_empty
  | some b => exact h address b hb

/-- Saving an entry of a kind keeps all entries of that kind. -/
theorem All.save {t : Table} (h : t.All P) (hweaker : ∀ e, P e → Q e) (hborrows : Borrows P Q)
    {key : Key} {depth value : Int} {bound : Bound} {move : Move}
    (hnew : Q ⟨key, value, depth, bound, move, t.generation⟩) :
    (t.save key depth (some bound) value move).All Q := by
  intro address b hb
  simp only [Table.save, Std.HashMap.getElem?_insert] at hb
  split at hb
  · cases hb
    exact (h.bucket (t.address key)).offer hweaker hborrows hnew
  · exact h.mono hweaker address b hb

/-- An entry settles a position by no value but its own, and gives its move. -/
theorem Entry.narrow_spec (e : Entry) (alpha beta : Int) :
    (∀ v, (e.narrow alpha beta).cutoff = some v → v = e.value) ∧
      (e.narrow alpha beta).move = e.move := by
  simp only [Entry.narrow]
  cases e.bound with
  | exact => exact ⟨fun v hv => (Option.some.inj hv).symm, rfl⟩
  | lower | upper =>
      refine ⟨fun v hv => ?_, rfl⟩
      simp only at hv
      split at hv
      · exact (Option.some.inj hv).symm
      · cases hv

/-- A value that settles a position is that of a deep enough entry of its key, and so is the move
that comes with it. -/
theorem All.of_cutoff {t : Table} (h : t.All P) {key : Key} {depth alpha beta v : Int}
    (hcutoff : (t.probe key depth alpha beta).cutoff = some v) :
    ∃ e, P e ∧ e.key = key ∧ depth ≤ e.depth ∧ v = e.value ∧
      (t.probe key depth alpha beta).move = e.move := by
  simp only [Table.probe] at hcutoff ⊢
  cases he : (t.bucketOf key).find? key with
  | none =>
      rw [he] at hcutoff
      cases hcutoff
  | some e =>
      obtain ⟨hkey, slot, hslot⟩ := Bucket.find?_spec he
      rw [he] at hcutoff
      simp only at hcutoff ⊢
      split at hcutoff
      · cases hcutoff
      · rename_i hlive
        rw [if_neg hlive]
        obtain ⟨hvalue, hmove⟩ := e.narrow_spec alpha beta
        exact ⟨e, h.bucket _ slot e hslot, hkey, Int.not_lt.1 fun hlt => hlive (Or.inr hlt),
          hvalue v hcutoff, hmove⟩

end Table

namespace Search

variable {P : Table.Entry → Prop} {setup : Setup} {w w' w'' : Walk} {search : Searcher}
  {Q : Walk → Walk → Prop}

/-! ## What a search keeps -/

/-- A relation between the walk that a search begins with and the one that it is at, which nothing
breaks that a search does on its way, short of recording a result. -/
structure Framing (setup : Setup) (Q : Walk → Walk → Prop) : Prop where
  refl : ∀ w, Q w w
  trans : ∀ {w w' w''}, Q w w' → Q w' w'' → Q w w''
  visit : ∀ w : Walk, Q w (w.visit setup)
  evaluate : ∀ w : Walk, Q w (w.evaluate setup).2
  play : ∀ {w played after : Walk} {m : Move} {flips : Bool}, w.play? m = some (flips, played) →
    Q played after → Q w after.takeBack

/-- A search that keeps a relation to the walk that it begins with. -/
def Keeps (Q : Walk → Walk → Prop) (search : Searcher) : Prop :=
  ∀ alpha beta w, Q w (search alpha beta w).2

/-- The value of a child keeps what the search of the child does. -/
theorem keeps_childValue (h : Keeps Q search) (flips : Bool) :
    Keeps Q (childValue search flips) := by
  intro alpha beta w
  cases flips with
  | false => exact h alpha beta w
  | true => exact h (-beta) (-alpha) w

namespace Framing

variable (hQ : Framing setup Q)

include hQ

theorem scout {flips : Bool} (h : Keeps Q (childValue search flips)) :
    Keeps Q (scout search flips) := by
  intro alpha beta w
  have hnarrow := h alpha (alpha + scoutWidth) w
  have hscout : Search.scout search flips alpha beta w =
      let first := childValue search flips alpha (alpha + scoutWidth) w
      if alpha < first.1 ∧ first.1 < beta ∧ ¬first.2.stopped then
        childValue search flips alpha beta first.2
      else first := rfl
  rw [hscout]
  generalize childValue search flips alpha (alpha + scoutWidth) w = first at hnarrow ⊢
  simp only
  split
  · exact hQ.trans hnarrow (h alpha beta first.2)
  · exact hnarrow

theorem child (h : Keeps Q search) (flavour : Flavour) (index : Nat) (flips : Bool) :
    Keeps Q (child flavour search index flips) := by
  simp only [Search.child]
  split
  · exact hQ.scout (keeps_childValue h flips)
  · exact keeps_childValue h flips

/-- Trying moves keeps what the search of each child does. -/
theorem tryMoves {child : Nat → Bool → Searcher} (h : ∀ i flips, Keeps Q (child i flips))
    (beta : Int) (rest : List RankedMove) (p : Progress) (w : Walk) (i : Nat) :
    Q w (tryMoves child beta i rest p w).2 := by
  induction rest generalizing p w i with
  | nil => exact hQ.refl w
  | cons r rest ih =>
      rw [Search.tryMoves]
      cases hplay : w.play? r.move with
      | none => exact ih p w (i + 1)
      | some step =>
          obtain ⟨flips, played⟩ := step
          have hback := hQ.play hplay (h i flips p.alpha beta played)
          simp only
          generalize child i flips p.alpha beta played = answer at hback ⊢
          -- whichever way the loop goes on, it goes on from the walk that has come back
          have hnext : ∀ p', Q w (Search.tryMoves child beta (i + 1) rest p' answer.2.takeBack).2 :=
            fun p' => hQ.trans hback (ih p' _ (i + 1))
          split
          · exact hback
          · split
            · split
              · split
                · exact hback
                · exact hnext _
              · exact hnext _
            · exact hnext _

theorem staticValue (depth : Int) (w : Walk) : Q w (staticValue setup depth w).2 := hQ.evaluate w

theorem quiet (depth : Nat) : Keeps Q (quiet setup depth) := by
  -- on the depth: the search one level down keeps the relation for every child
  induction depth with
  | zero => exact fun _ _ w => hQ.trans (hQ.visit w) (hQ.evaluate _)
  | succ depth ih =>
      intro alpha beta w
      have hstatic : Q w ((w.visit setup).evaluate setup).2 :=
        hQ.trans (hQ.visit w) (hQ.evaluate _)
      simp only [Search.quiet]
      split
      · exact hstatic
      · split
        · exact hstatic
        · have htried := hQ.trans (hQ.visit w)
            (hQ.tryMoves (fun _ flips => keeps_childValue ih flips) beta
              ((w.visit setup).position.rankedMoves .none) { alpha := alpha } (w.visit setup) 0)
          split
          · exact hQ.trans htried (hQ.evaluate _)
          · exact htried

theorem horizon (depth : Int) : Keeps Q (horizon setup depth) := by
  intro alpha beta w
  simp only [Search.horizon]
  split
  · exact hQ.trans (hQ.visit w) (hQ.staticValue depth _)
  · exact hQ.trans (hQ.visit w) (hQ.quiet setup.quietDepth alpha beta _)

/-- Expanding a node keeps what its children and its record do. -/
theorem expand {child : Nat → Bool → Searcher} (h : ∀ i flips, Keeps Q (child i flips))
    {depth : Int}
    (hrecord : ∀ alpha beta p w, Q w (finishNode setup depth alpha beta p w).2) :
    Keeps Q (expand setup child depth) := by
  intro alpha beta w
  simp only [Search.expand]
  split
  · exact hQ.refl w
  · split
    · exact hQ.staticValue _ _
    · exact hQ.trans (hQ.tryMoves h _ _ _ _ 0) (hrecord _ _ _ _)

/-- A search of a node keeps what the records of its node and of those below it keep. -/
theorem node (flavour : Flavour) (d : Nat)
    (hrecord : ∀ e < d, ∀ alpha beta p w,
      Q w (finishNode setup ((e : Int) + 1) alpha beta p w).2) :
    Keeps Q (node setup flavour d) := by
  induction d with
  | zero => exact hQ.horizon 0
  | succ d ih =>
      intro alpha beta w
      have hvisit := hQ.visit w
      have hchild := fun i flips =>
        hQ.child (ih fun e he => hrecord e (Nat.lt_succ_of_lt he)) flavour i flips
      simp only [Search.node]
      split
      · exact hQ.trans hvisit (hQ.staticValue _ _)
      · generalize (if isPastMoveLimit (w.visit setup).position = true then 0 else alpha) = low
        split
        · exact hvisit
        · split
          · exact hvisit
          · exact hQ.trans hvisit (hQ.expand hchild (hrecord d (Nat.lt_succ_self d)) low beta _)

/-- So does a descent of any depth. -/
theorem descend (flavour : Flavour) (depth : Int)
    (hrecord : ∀ e < depth.toNat, ∀ alpha beta p w,
      Q w (finishNode setup ((e : Int) + 1) alpha beta p w).2) :
    Keeps Q (descend setup flavour depth) := by
  simp only [Search.descend]
  intro alpha beta w
  split
  · exact hQ.horizon depth alpha beta w
  · exact hQ.node flavour depth.toNat hrecord alpha beta w

end Framing

/-! ## Coming back -/

/-- A walk that has come back to where it was, with a table whose entries keep a property. -/
structure Back (P : Table.Entry → Prop) (before after : Walk) : Prop where
  position : after.position = before.position
  saved : after.saved = before.saved
  entries : before.table.All P → after.table.All P

theorem Back.refl (w : Walk) : Back P w w := ⟨rfl, rfl, id⟩

theorem Back.trans (h : Back P w w') (h' : Back P w' w'') : Back P w w'' :=
  ⟨h'.position.trans h.position, h'.saved.trans h.saved, fun ht => h'.entries (h.entries ht)⟩

/-- A walk that is back where it was. -/
structure Restored (before after : Walk) : Prop where
  position : after.position = before.position
  saved : after.saved = before.saved

theorem Restored.refl (w : Walk) : Restored w w := ⟨rfl, rfl⟩

theorem Restored.trans (h : Restored w w') (h' : Restored w' w'') : Restored w w'' :=
  ⟨h'.position.trans h.position, h'.saved.trans h.saved⟩

/-- A search that comes back restores the position and the saved states. -/
theorem Back.restored (h : Back P w w') : Restored w w' := ⟨h.position, h.saved⟩

/-- Nothing is asked of the entries of the table. -/
theorem tolerant_any (depth : Int) : Table.Tolerant (fun _ => True) depth :=
  ⟨fun _ _ => trivial, fun _ _ _ _ _ => trivial⟩

/-- A move that is played leads to where a search can take it back. -/
theorem exists_of_play {m : Move} {flips : Bool} {played : Walk}
    (hplay : w.play? m = some (flips, played)) :
    ∃ next, w.position.apply m = .ok next ∧
      played = { w with position := next, saved := w.position.state :: w.saved } := by
  cases hnext : w.position.apply m with
  | error refusal => simp [Walk.play?, Position.makeMove, hnext, Except.map] at hplay
  | ok next =>
      simp only [Walk.play?, Position.makeMove, hnext, Except.map, Option.some.injEq,
        Prod.mk.injEq] at hplay
      exact ⟨next, rfl, hplay.2.symm⟩

/-- Taking a move back undoes the move and what a search has done in between. -/
theorem Back.of_play {m : Move} {flips : Bool} {played after : Walk}
    (hplay : w.play? m = some (flips, played)) (hback : Back P played after) :
    Back P w after.takeBack := by
  obtain ⟨next, hnext, rfl⟩ := exists_of_play hplay
  have hvariant : after.position.variant = w.position.variant :=
    (congrArg Position.variant hback.position).trans (Position.variant_apply hnext)
  rw [takeBack_eq hvariant hback.saved]
  exact ⟨rfl, rfl, hback.entries⟩

/-- Coming back is kept through playing a move, searching and taking the move back. -/
theorem framing_back (setup : Setup) (P : Table.Entry → Prop) : Framing setup (Back P) where
  refl := .refl
  trans := .trans
  visit _ := ⟨rfl, rfl, id⟩
  evaluate _ := ⟨rfl, rfl, id⟩
  play := .of_play

/-- The result of a node is recorded if it has the property. -/
theorem back_finishNode (setup : Setup) (hborrows : Table.Borrows P P) {depth : Int}
    (alpha beta : Int) {p : Progress}
    (hnew : ∀ bound,
      P ⟨w.position.state.key, p.best, depth, bound, p.bestMove, w.table.generation⟩) :
    Back P w (finishNode setup depth alpha beta p w).2 := by
  simp only [finishNode]
  split
  · split
    · exact (framing_back setup P).staticValue depth w
    · exact .refl w
  · exact ⟨rfl, rfl, fun ht => ht.save (fun _ he => he) hborrows (hnew _)⟩

/-- Nodes record results of at most the depth that is left to them. -/
theorem comesBack_node {depth : Int} (hP : Table.Tolerant P depth) (flavour : Flavour) {d : Nat}
    (hd : (d : Int) < depth) : Keeps (Back P) (node setup flavour d) :=
  (framing_back setup P).node flavour d fun e he alpha beta _ _ =>
    back_finishNode setup hP.borrows alpha beta fun _ => hP.shallow _ (by simp only; omega)

/-- A descent comes back. -/
theorem comesBack_descend (setup : Setup) {depth : Int} (hP : Table.Tolerant P depth)
    (flavour : Flavour) {d : Int} (hd : d < depth) : Keeps (Back P) (descend setup flavour d) :=
  (framing_back setup P).descend flavour d fun e he alpha beta _ _ =>
    back_finishNode setup hP.borrows alpha beta fun _ => hP.shallow _ (by simp only; omega)

/-! ## Going on -/

/-- A walk that goes on if it did before. -/
def GoesOn (before after : Walk) : Prop := before.stopped = false → after.stopped = false

theorem stopped_takeBack (w : Walk) : w.takeBack.stopped = w.stopped := by
  rw [Walk.takeBack]
  split <;> rfl

theorem framing_goesOn (hsetup : setup.Undisturbed) : Framing setup GoesOn where
  refl _ := id
  trans h h' hgoing := h' (h hgoing)
  visit _ hgoing := (hsetup.visit hgoing).going
  evaluate _ hgoing := (hsetup.evaluate hgoing).going
  play hplay h hgoing := by
    obtain ⟨_, _, rfl⟩ := exists_of_play hplay
    rw [stopped_takeBack]
    exact h hgoing

/-- A search that nothing stops goes on. -/
theorem goesOn_descend (hsetup : setup.Undisturbed) (flavour : Flavour) (depth : Int) :
    Keeps GoesOn (descend setup flavour depth) :=
  (framing_goesOn hsetup).descend flavour depth fun _ _ _ _ _ _ hgoing => by
    simp [finishNode, hgoing]

/-! ## The table past the horizon -/

theorem table_takeBack (w : Walk) : w.takeBack.table = w.table := by
  rw [Walk.takeBack]
  split <;> rfl

theorem table_of_play {m : Move} {flips : Bool} {played : Walk}
    (hplay : w.play? m = some (flips, played)) : played.table = w.table := by
  obtain ⟨_, _, rfl⟩ := exists_of_play hplay
  rfl

theorem framing_table (setup : Setup) : Framing setup fun w w' => w'.table = w.table where
  refl _ := rfl
  trans h h' := h'.trans h
  visit _ := rfl
  evaluate _ := rfl
  play hplay h := (table_takeBack _).trans (h.trans (table_of_play hplay))

/-- Past the horizon nothing is recorded. -/
theorem table_horizon (setup : Setup) (depth alpha beta : Int) (w : Walk) :
    (horizon setup depth alpha beta w).2.table = w.table :=
  (framing_table setup).horizon depth alpha beta w

/-! ## The moves that a node comes up with -/

/-- What the loop over moves comes up with: the best move so far or a better one among the moves,
and the last move to raise alpha so far or one among the moves. -/
structure Picked (rest : List RankedMove) (before after : Progress) : Prop where
  best : (after.best = before.best ∧ after.bestMove = before.bestMove) ∨
    (before.best < after.best ∧ ∃ r ∈ rest, r.move = after.bestMove)
  raised : after.raised = before.raised ∨ ∃ r ∈ rest, after.raised = some r.move

namespace Picked

variable {rest : List RankedMove} {p q s : Progress} {r : RankedMove}

theorem refl (rest : List RankedMove) (p : Progress) : Picked rest p p :=
  ⟨Or.inl ⟨rfl, rfl⟩, Or.inl rfl⟩

theorem best_le (h : Picked rest p q) : p.best ≤ q.best := by
  rcases h.best with ⟨heq, _⟩ | ⟨hlt, _⟩
  · exact Int.le_of_eq heq.symm
  · exact Int.le_of_lt hlt

/-- One move first and then the others. -/
theorem cons (h : Picked [r] p q) (h' : Picked rest q s) : Picked (r :: rest) p s := by
  have hhead : ∀ m, (∃ x ∈ [r], x.move = m) → ∃ x ∈ r :: rest, x.move = m := by
    rintro m ⟨x, hx, hm⟩
    exact ⟨x, List.mem_cons.2 (Or.inl (List.mem_singleton.1 hx)), hm⟩
  constructor
  · rcases h'.best with ⟨heq, hmove⟩ | ⟨hlt, x, hx, hmove⟩
    · rw [heq, hmove]
      exact h.best.imp_right fun hfound => ⟨hfound.1, hhead _ hfound.2⟩
    · exact Or.inr ⟨Int.lt_of_le_of_lt h.best_le hlt, x, List.mem_cons_of_mem r hx, hmove⟩
  · rcases h'.raised with heq | ⟨x, hx, hraised⟩
    · rw [heq]
      refine h.raised.imp_right ?_
      rintro ⟨x, hx, hraised⟩
      exact ⟨x, List.mem_cons.2 (Or.inl (List.mem_singleton.1 hx)), hraised⟩
    · exact Or.inr ⟨x, List.mem_cons_of_mem r hx, hraised⟩

end Picked

theorem tryMoves_picked (child : Nat → Bool → Searcher) (beta : Int) (rest : List RankedMove)
    (p : Progress) (w : Walk) (i : Nat) : Picked rest p (tryMoves child beta i rest p w).1 := by
  -- on the moves that are left; every branch adds one step to what the rest picks
  induction rest generalizing p w i with
  | nil => exact .refl [] p
  | cons r rest ih =>
      have hself : ∃ x ∈ [r], x.move = r.move := ⟨r, List.mem_singleton.2 rfl, rfl⟩
      rw [tryMoves]
      cases w.play? r.move with
      | none => exact (Picked.refl [r] p).cons (ih p w (i + 1))
      | some step =>
          simp only
          generalize child i step.1 p.alpha beta step.2 = answer
          split
          · exact .refl _ p
          · split
            · rename_i hbetter
              have hbest : ∀ alpha raised, (raised = p.raised ∨ raised = some r.move) →
                  Picked [r] p ⟨alpha, answer.1, r.move, raised⟩ := by
                intro alpha raised hraised
                exact ⟨Or.inr ⟨hbetter, hself⟩, hraised.imp_right fun heq =>
                  ⟨r, List.mem_singleton.2 rfl, heq⟩⟩
              split
              · split
                · exact (hbest _ _ (Or.inr rfl)).cons (.refl rest _)
                · exact (hbest _ _ (Or.inr rfl)).cons (ih _ _ (i + 1))
              · exact (hbest _ _ (Or.inl rfl)).cons (ih _ _ (i + 1))
            · exact (Picked.refl [r] p).cons (ih p _ (i + 1))

end Search

end Morris
