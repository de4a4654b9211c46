import Mathlib.Data.List.Chain
import Morris.Proofs.Game.Choice
import Morris.Proofs.Quiet

/-!
# The keys of a game and its slides

The keys of a game are meant to be those reached by its slides since the last placement, removal or
new game. `Game.Chronicle` keeps these keys, the trail, beside a game: from the entries and from
what the board shows, not from the kind of the recorded moves, and with the trails before the
records, so that taking a record back brings its trail back.

The trail is as long as the count of quiet moves, always. The keys are the trail until an entry
misleads the game (`Game.Misleads`), and `Game.run_keys` says that just three kinds of entries do:
the choice of the rule in force, which starts over and leaves the keys; a placement or slide onto an
own man, which moves nothing and is noted as a move; and taking back the choice of another rule,
whose keys have been thrown away.
-/

set_option autoImplicit false

namespace Morris

namespace Game

variable {rule : Rule} {g next start : Game} {text : String}

/-! ## Trails -/

/-- What is entered in a game: a record, or that the last record is taken back. -/
inductive Entry where
  | record (text : String)
  | undo

/-- The trail after a record has been accepted: a new game, a placement and a removal leave nothing
to return to, and a slide adds the key that it reaches. -/
def trailAfter (trail : List Key) (text : String) (before next : Position) : List Key :=
  if StartsOver text ∨ next.state.onBoard ≠ before.state.onBoard then []
  else if next.state.board ≠ before.state.board then trail ++ [next.state.key]
  else trail

/-- A game with its trail. -/
structure Chronicle where
  game : Game
  /-- Keys reached by the slides since the last placement, removal or new game, the first one
  first. -/
  trail : List Key := []
  /-- The trails before each of the records. -/
  past : List (List Key) := []

/-- Enter something; what is refused changes nothing. -/
def Chronicle.enter (c : Chronicle) : Entry → Chronicle
  | .record text =>
      match c.game.command text with
      | none => c
      | some next =>
          { game := next
            trail := trailAfter c.trail text c.game.position next.position
            past := (c.past ++ [c.trail]).rtake next.steps.length }
  | .undo =>
      match c.game.undo? with
      | none => c
      | some next => { game := next, trail := c.past.getLast?.getD [], past := c.past.dropLast }

/-- Enter one thing after another in a game. -/
def run (start : Game) (entries : List Entry) : Chronicle :=
  entries.foldl Chronicle.enter { game := start }

/-- The entries by which the keys of a game come to differ from its trail. The choice of the rule in
force leaves the keys; a placement or slide onto an own man, which is only picked up, takes the keys
away or adds one; and when the only record is taken back, no keys are left. -/
def Misleads (g : Game) : Entry → Prop
  | .record text => (g.command text).isSome = true ∧
      ((chosenRule? text = some g.position.rule ∧ g.keys ≠ []) ∨
        ∃ m ∈ Move.ofText? (recordOf text), m.kind ≠ .remove ∧
          g.position.contentAt m.target = g.position.state.side.man ∧
          (m.kind = .slide ∨ g.keys ≠ []))
  | .undo => g.steps.length = 1 ∧ ∃ s ∈ g.steps, s.before.state.quiet ≠ 0

instance (g : Game) (entry : Entry) : Decidable (g.Misleads entry) :=
  match entry with
  | .record _ => inferInstanceAs (Decidable (_ ∧ (_ ∨ _)))
  | .undo => inferInstanceAs (Decidable (_ ∧ _))

/-! ## Accepted records -/

theorem keys_drawIfRepeated (g : Game) : g.drawIfRepeated.keys = g.keys := by
  rw [drawIfRepeated]
  split <;> rfl

/-- A draw by repetition leaves the men and the key as they are. -/
theorem sameMen_drawIfRepeated (g : Game) : g.position.SameMen g.drawIfRepeated.position ∧
    g.drawIfRepeated.position.state.key = g.position.state.key := by
  rw [drawIfRepeated]
  split <;> exact ⟨⟨rfl, rfl, rfl⟩, rfl⟩

theorem trailAfter_drawIfRepeated (trail : List Key) (text : String) (before : Position)
    (g : Game) : trailAfter trail text before g.drawIfRepeated.position =
      trailAfter trail text before g.position := by
  rw [drawIfRepeated]
  split <;> rfl

/-- What an accepted record makes of a game. -/
inductive Entered (g : Game) (text : String) : Game → Prop
  /-- A blank text starts over. -/
  | cleared : Text.trim text.toList = [] → Entered g text g.reset
  /-- Another rule is chosen. -/
  | changed {chosen : Rule} {pos : Position} : chosenRule? text = some chosen →
      g.position.rule ≠ chosen → Position.ofRule chosen = .ok pos →
      Entered g text
        { position := pos, steps := [⟨g.position, Text.trimString text⟩], keys := [] }
  /-- The rule in force is chosen. -/
  | restarted {pos : Position} {record : String} : chosenRule? text = some g.position.rule →
      Position.ofRule g.position.rule = .ok pos →
      Entered g text (drawIfRepeated
        { position := pos, steps := g.steps ++ [⟨g.position, record⟩], keys := g.keys })
  | moved {m : Move} {pos : Position} {record : String} : ¬ StartsOver text →
      Move.ofText? (recordOf text) = some m → g.position.apply m = .ok pos →
      Entered g text (drawIfRepeated
        { position := pos
          steps := g.steps ++ [⟨g.position, record⟩]
          keys := noteMove m.kind pos.state.key g.keys })
  /-- The men stay where they are, and the game may end. -/
  | noted {pos : Position} {record : String} : ¬ StartsOver text →
      Move.ofText? (recordOf text) = none → g.position.SameMen pos →
      Entered g text (drawIfRepeated
        { position := pos, steps := g.steps ++ [⟨g.position, record⟩], keys := g.keys })

theorem entered_of_choice {chosen : Rule} (hchosen : chosenRule? text = some chosen)
    (hnext : g.command text = some next) : g.Entered text next := by
  obtain ⟨pos, hpos⟩ := exists_ofRule_of_chosenRule hchosen
  obtain ⟨hrule, _⟩ := rule_of_ofRule hpos
  rw [command_of_chosen hchosen hpos] at hnext
  cases hnext
  by_cases hsame : g.position.rule = chosen
  · subst hsame
    rw [accept_restart hpos]
    exact .restarted hchosen hpos
  · rw [accept, if_pos (by rw [hrule]; exact hsame)]
    exact .changed hchosen hsame hpos

theorem entered_of_goes (hgoes : ¬ StartsOver text)
    (hnext : g.command text = some next) : g.Entered text next := by
  obtain ⟨pos, hpos, rfl⟩ := exists_of_command hgoes hnext
  rw [Position.command_of_full (trim_ne_nil_of_goes hgoes)] at hpos
  have hnoted (hmove : Move.ofText? (recordOf text) = none) (hsame : g.position.SameMen pos)
      (hply : pos.state.ply = g.position.state.ply) :
      g.Entered text (g.accept (Text.trimString text) pos) := by
    -- the count of moves stays, so the record is not taken for a move
    have hmoved : ¬ (pos.state ≠ g.position.state ∧
        pos.state.ply = g.position.state.ply + 1) := by
      omega
    rw [accept, if_neg (not_not.2 hsame.rule.symm)]
    simp only [if_neg hmoved]
    exact .noted hgoes hmove hsame
  have hended {loser : Colour} {ending : Ending} (hmove : Move.ofText? (recordOf text) = none)
      (hend : g.position.endAgainst loser ending = .ok pos) :
      g.Entered text (g.accept (Text.trimString text) pos) := by
    obtain ⟨_, rfl⟩ := Position.endAgainst_spec hend
    exact hnoted hmove (Position.sameMen_finish _ _ _) rfl
  cases Position.commanded_of_commandBody hpos with
  | @moved m _ hmove happly =>
      obtain ⟨hply, hlast⟩ := Position.counted_apply happly
      have hrule := congrArg Variant.rule (Position.variant_apply happly)
      rw [accept_moved hrule hply, hlast]
      exact .moved hgoes hmove happly
  | gaveUp hmove _ hend => exact hended hmove hend
  | timeUp hmove _ hend => exact hended hmove hend
  | chosen hnumber hstart => exact absurd (Or.inr ⟨_, _, hnumber, hstart⟩) hgoes
  | noted hmove _ _ => exact hnoted hmove (.refl _) rfl
  | drawn hmove _ _ => exact hnoted hmove (Position.sameMen_finish _ _ _) rfl

theorem entered_of_command (hnext : g.command text = some next) : g.Entered text next := by
  by_cases hblank : Text.trim text.toList = []
  · have hempty : (Text.trimString text).isEmpty = true := by
      rw [Text.trimString, hblank]
      rfl
    simp only [command, hempty, if_true] at hnext
    cases hnext
    exact .cleared hblank
  · cases hchosen : chosenRule? text with
    | some chosen => exact entered_of_choice hchosen hnext
    | none =>
        refine entered_of_goes ?_ hnext
        rw [startsOver_iff, hchosen]
        simpa using hblank

/-! ## What one record does to the trail -/

theorem trailAfter_of_startsOver (h : StartsOver text) (trail : List Key) (before next : Position) :
    trailAfter trail text before next = [] :=
  if_pos (Or.inl h)

theorem trailAfter_of_sameMen {before next : Position} (hgoes : ¬ StartsOver text)
    (hsame : next.state.toLayout = before.state.toLayout) (trail : List Key) :
    trailAfter trail text before next = trail := by
  simp [trailAfter, hgoes, hsame]

theorem trailAfter_of_counted {before next : Position}
    (hcount : next.state.onBoard ≠ before.state.onBoard) (trail : List Key) :
    trailAfter trail text before next = [] :=
  if_pos (Or.inr hcount)

theorem trailAfter_of_slid {before next : Position} (hgoes : ¬ StartsOver text)
    (hcount : next.state.onBoard = before.state.onBoard)
    (hboard : next.state.board ≠ before.state.board) (trail : List Key) :
    trailAfter trail text before next = trail ++ [next.state.key] := by
  simp [trailAfter, hgoes, hcount, hboard]

/-- A trail and the position that it belongs to. -/
abbrev Spot : Type := List Key × Position

/-- How one spot comes after another: the trail is kept as long as the count of quiet moves, and a
slide adds the key that it reaches. -/
structure Continues (x y : Spot) : Prop where
  quiet : x.1.length = x.2.state.quiet → y.1.length = y.2.state.quiet
  slid : ∀ p, y.2.contentAt p = x.2.state.side.man → y.2.state.onBoard = x.2.state.onBoard →
    y.2.state.board ≠ x.2.state.board → y.1.getLast? = some y.2.state.key

theorem Continues.last {x y : Spot} (h : Continues x y) {a b : Point} (hslid : x.2.Slid y.2 a b) :
    y.1.getLast? = some y.2.state.key :=
  h.slid b hslid.arrived hslid.onBoard hslid.board_ne

variable {trail : List Key} {pos after : Position}

/-- An empty board with an empty trail may follow anything. -/
theorem continues_of_empty {x : Spot} (hquiet : pos.state.quiet = 0)
    (hempty : ∀ q, pos.contentAt q = .empty) : Continues x ([], pos) where
  quiet _ := hquiet.symm
  slid p hman := by
    rw [hempty] at hman
    exact absurd hman.symm (Side.man_ne_empty _)

/-- Where the men stay, so does the trail. -/
theorem continues_of_sameMen (h : pos.SameMen after) : Continues (trail, pos) (trail, after) where
  quiet hquiet := hquiet.trans h.quiet.symm
  slid _ _ _ hboard := absurd (congrArg Layout.board h.layout) hboard

theorem continues_of_stirs {m : Move} (hgoes : ¬ StartsOver text) (h : pos.Stirs m after) :
    Continues (trail, pos) (trailAfter trail text pos after, after) := by
  cases h with
  | counted _ _ hcount hquiet =>
      rw [trailAfter_of_counted hcount]
      exact ⟨fun _ => hquiet.symm, fun _ _ hsame => absurd hsame hcount⟩
  | slid _ _ hcount hboard hquiet =>
      rw [trailAfter_of_slid hgoes hcount hboard]
      refine ⟨fun htrail => ?_, fun _ _ _ _ => List.getLast?_concat⟩
      have hlength : trail.length = pos.state.quiet := htrail
      simp [hlength, hquiet]
  | held _ _ hlayout hquiet =>
      rw [trailAfter_of_sameMen hgoes hlayout]
      exact ⟨fun htrail => htrail.trans hquiet.symm,
        fun _ _ _ hboard => absurd (congrArg Layout.board hlayout) hboard⟩

theorem Continues.drawIfRepeated {x : Spot} (h : Continues x (trail, g.position)) :
    Continues x (trail, g.drawIfRepeated.position) := by
  obtain ⟨hsame, hkey⟩ := sameMen_drawIfRepeated g
  refine ⟨fun hx => (h.quiet hx).trans hsame.quiet.symm, fun p => ?_⟩
  rw [hsame.content, hsame.layout, hkey]
  exact h.slid p

/-- The first position of a rule has an empty board. -/
theorem empty_of_ofRule (h : Position.ofRule rule = .ok pos) :
    pos.state.quiet = 0 ∧ ∀ q, pos.contentAt q = .empty := by
  obtain ⟨_, hstate⟩ := rule_of_ofRule h
  refine ⟨by rw [hstate]; rfl, fun q => ?_⟩
  rw [Position.contentAt, hstate]
  exact Position.content_initial _ q

/-- An accepted record continues the spot of the game. -/
theorem Entered.continues (h : g.Entered text next) (hsound : g.position.Sound)
    (trail : List Key) : Continues (trail, g.position)
      (trailAfter trail text g.position next.position, next.position) := by
  cases h with
  | cleared hblank =>
      rw [trailAfter_of_startsOver (Or.inl hblank)]
      exact continues_of_empty rfl (Position.content_initial _)
  | changed hchosen _ hpos =>
      rw [trailAfter_of_startsOver (startsOver_of_chosen hchosen)]
      obtain ⟨hquiet, hempty⟩ := empty_of_ofRule hpos
      exact continues_of_empty hquiet hempty
  | restarted hchosen hpos =>
      rw [trailAfter_of_startsOver (startsOver_of_chosen hchosen)]
      obtain ⟨hquiet, hempty⟩ := empty_of_ofRule hpos
      exact (continues_of_empty hquiet hempty).drawIfRepeated
  | moved hgoes hmove happly =>
      rw [trailAfter_drawIfRepeated]
      have hstirs := hsound.stirs_apply (Move.onBoard_ofText? hmove) happly
      exact (continues_of_stirs hgoes hstirs).drawIfRepeated
  | noted hgoes _ hsame =>
      rw [trailAfter_drawIfRepeated]
      rw [trailAfter_of_sameMen hgoes hsame.layout]
      exact (continues_of_sameMen hsame).drawIfRepeated

/-- An accepted record adds a step, unless it begins a new list of records. -/
theorem Entered.steps (h : g.Entered text next) :
    (StartsOver text ∧ next.steps = []) ∨
      (StartsOver text ∧ ∃ record, next.steps = [⟨g.position, record⟩]) ∨
      ∃ record, next.steps = g.steps ++ [⟨g.position, record⟩] := by
  cases h with
  | cleared hblank => exact Or.inl ⟨Or.inl hblank, rfl⟩
  | changed hchosen _ _ => exact Or.inr (Or.inl ⟨startsOver_of_chosen hchosen, _, rfl⟩)
  | restarted _ _ => exact Or.inr (Or.inr ⟨_, steps_drawIfRepeated _⟩)
  | moved _ _ _ => exact Or.inr (Or.inr ⟨_, steps_drawIfRepeated _⟩)
  | noted _ _ _ => exact Or.inr (Or.inr ⟨_, steps_drawIfRepeated _⟩)

/-- A move is noted as it shows on the board, unless it is a placement or slide onto an own man and
there are keys to lose or one is added. -/
theorem noteMove_eq_iff {m : Move} (hgoes : ¬ StartsOver text) (h : pos.Stirs m after)
    (keys : List Key) : noteMove m.kind after.state.key keys = trailAfter keys text pos after ↔
      ¬ (m.kind ≠ .remove ∧ pos.contentAt m.target = pos.state.side.man ∧
        (m.kind = .slide ∨ keys ≠ [])) := by
  cases h with
  | counted hkind hother hcount _ =>
      rw [trailAfter_of_counted hcount]
      have hnote : noteMove m.kind after.state.key keys = [] := by
        cases hm : m.kind with
        | slide => exact absurd hm hkind
        | place => rfl
        | remove => rfl
      rw [hnote, eq_self_iff_true, true_iff]
      rintro ⟨hremove, hown, _⟩
      exact hother.elim hremove (absurd hown)
  | slid hkind hother hcount hboard _ =>
      rw [trailAfter_of_slid hgoes hcount hboard, hkind, noteMove, eq_self_iff_true, true_iff]
      exact fun hheld => hother hheld.2.1
  -- an own man is picked up or dropped: nothing is counted, but a key is noted or the keys go
  | held hkind hown hlayout _ =>
      rw [trailAfter_of_sameMen hgoes hlayout]
      cases hm : m.kind with
      | remove => exact absurd hm hkind
      | slide => simp [noteMove, hown]
      | place => simp [noteMove, hown, eq_comm]

/-- Where the keys are the trail, an accepted record keeps them so unless it misleads. -/
theorem Entered.keys_eq_iff (h : g.Entered text next) (hsound : g.position.Sound)
    (haccepted : (g.command text).isSome = true) :
    next.keys = trailAfter g.keys text g.position next.position ↔
      ¬ g.Misleads (.record text) := by
  rw [Misleads, and_iff_right haccepted]
  -- a text that chooses a rule is no move
  have hnone : ∀ {chosen}, chosenRule? text = some chosen →
      Move.ofText? (recordOf text) = none := by
    intro chosen hchosen
    obtain ⟨_, hnumber, _⟩ := chosenRule_eq_some_iff.1 hchosen
    exact (ruleNumber_only (trim_recordOf text) hnumber).1
  cases h with
  | cleared hblank =>
      have hempty : recordOf text = [] := by
        rw [recordOf, hblank]
        rfl
      have hmove : Move.ofText? [] = none := by decide
      rw [trailAfter_of_startsOver (Or.inl hblank), hempty, hmove, chosenRule_of_blank hblank]
      simp [reset, ofPosition]
  | changed hchosen hother _ =>
      rw [trailAfter_of_startsOver (startsOver_of_chosen hchosen), hnone hchosen, hchosen]
      simpa using fun hsame => absurd hsame.symm hother
  | restarted hchosen _ =>
      rw [trailAfter_of_startsOver (startsOver_of_chosen hchosen), keys_drawIfRepeated,
        hnone hchosen, hchosen]
      simp
  | moved hgoes hmove happly =>
      have hstirs := hsound.stirs_apply (Move.onBoard_ofText? hmove) happly
      rw [trailAfter_drawIfRepeated, keys_drawIfRepeated, chosenRule_of_goes hgoes, hmove,
        noteMove_eq_iff hgoes hstirs]
      simp
  | noted hgoes hmove hsame =>
      rw [trailAfter_drawIfRepeated, keys_drawIfRepeated, chosenRule_of_goes hgoes, hmove,
        trailAfter_of_sameMen hgoes hsame.layout]
      simp

/-! ## Chronicles -/

namespace Chronicle

variable {c : Chronicle}

/-- The spots of a game, from the position before its first record to the present one. -/
def spots (c : Chronicle) : List Spot :=
  c.past.zip (c.game.steps.map (·.before)) ++ [(c.trail, c.game.position)]

/-- What entries keep: every record has its trail, every trail is as long as the count of quiet
moves, and the spots continue each other. -/
structure Kept (rule : Rule) (c : Chronicle) : Prop where
  reachable : Reachable rule c.game
  length : c.past.length = c.game.steps.length
  quiet : ∀ x ∈ c.spots, x.1.length = x.2.state.quiet
  chain : c.spots.IsChain Continues

/-- The trails behind the first spot are the keys that the positions give. -/
def Faithful (c : Chronicle) : Prop :=
  ∀ earlier x later, c.spots = earlier ++ x :: later → earlier ≠ [] →
    x.1 = rebuildKeys (earlier.map (·.2) ++ [x.2])

theorem positions_spots (h : c.past.length = c.game.steps.length) :
    c.spots.map (·.2) = c.game.steps.map (·.before) ++ [c.game.position] := by
  rw [spots, List.map_append, List.map_snd_zip (by simp [h])]
  rfl

theorem Kept.trail_length (h : c.Kept rule) : c.trail.length = c.game.position.state.quiet :=
  h.quiet (c.trail, c.game.position) (List.mem_append_right _ (List.mem_singleton_self _))

theorem Kept.keys_eq (h : c.Kept rule) : c.game.keys = rebuildKeys (c.spots.map (·.2)) := by
  rw [positions_spots h.length]
  exact h.reachable.remembers

/-- A faithful chronicle has the right keys, unless it has no record and stands where slides have
been made. -/
theorem Faithful.keys_eq_iff (hfaithful : c.Faithful) (h : c.Kept rule) :
    c.game.keys = c.trail ↔ (c.game.steps = [] → c.game.position.state.quiet = 0) := by
  by_cases hsteps : c.game.steps = []
  · have hkeys : c.game.keys = [] := by
      rw [h.keys_eq, positions_spots h.length, hsteps]
      rfl
    rw [hkeys, ← h.trail_length]
    simp [hsteps, eq_comm]
  -- past the first step the last spot has one before it, to which faithfulness applies
  · have hearlier : c.past.zip (c.game.steps.map (·.before)) ≠ [] := by
      intro hnone
      have hlength := congrArg List.length hnone
      simp only [List.length_zip, List.length_map, h.length, Nat.min_self,
        List.length_nil] at hlength
      exact hsteps (List.length_eq_zero_iff.1 hlength)
    have htrail := hfaithful _ (c.trail, c.game.position) [] rfl hearlier
    have hkeys := h.keys_eq
    rw [spots, List.map_append] at hkeys
    exact ⟨fun _ hnone => absurd hnone hsteps, fun _ => hkeys.trans htrail.symm⟩

/-! ## One entry -/

/-- What an accepted record makes of the spots: one more, or a new game, with or without the record
that chose its rule. -/
inductive Extends (c : Chronicle) (next : Game) (trail : List Key) (after : Chronicle) : Prop
  | added : after.spots = c.spots ++ [(trail, next.position)] → Extends c next trail after
  | chosen : trail = [] → after.spots = [(c.trail, c.game.position), ([], next.position)] →
      Extends c next trail after
  | cleared : trail = [] → after.spots = [([], next.position)] → Extends c next trail after

theorem extends_of_command (h : c.Kept rule) (hnext : c.game.command text = some next)
    {trail : List Key} (htrail : trailAfter c.trail text c.game.position next.position = trail) :
    ((c.past ++ [c.trail]).rtake next.steps.length).length = next.steps.length ∧
      c.Extends next trail
        { game := next
          trail := trail
          past := (c.past ++ [c.trail]).rtake next.steps.length } := by
  have hentered := entered_of_command hnext
  -- the steps are dropped, begin anew with the rule, or get one more
  rcases hentered.steps with ⟨hover, hsteps⟩ | ⟨hover, record, hsteps⟩ | ⟨record, hsteps⟩
  · obtain rfl : [] = trail := (trailAfter_of_startsOver hover _ _ _).symm.trans htrail
    refine ⟨by simp [hsteps, List.rtake], .cleared rfl ?_⟩
    simp [spots, hsteps]
  · obtain rfl : [] = trail := (trailAfter_of_startsOver hover _ _ _).symm.trans htrail
    have hpast : (c.past ++ [c.trail]).rtake next.steps.length = [c.trail] := by
      simp [hsteps, List.rtake]
    rw [hpast]
    refine ⟨by simp [hsteps], .chosen rfl ?_⟩
    simp [spots, hsteps]
  · have hpast : (c.past ++ [c.trail]).rtake next.steps.length = c.past ++ [c.trail] := by
      simp [List.rtake, hsteps, h.length]
    rw [hpast]
    refine ⟨by simp [hsteps, h.length], .added ?_⟩
    simp only [spots, hsteps, List.map_append, List.map_cons, List.map_nil]
    rw [List.zip_append (by simp [h.length])]
    rfl

theorem Kept.record (h : c.Kept rule) (text : String) : (c.enter (.record text)).Kept rule := by
  cases hnext : c.game.command text with
  | none => simpa only [enter, hnext] using h
  | some next =>
      have hsound := h.reachable.soundAll.position
      have hcontinues := (entered_of_command hnext).continues hsound c.trail
      have hquiet := hcontinues.quiet h.trail_length
      simp only [enter, hnext]
      generalize htrail : trailAfter c.trail text c.game.position next.position = trail at *
      obtain ⟨hlength, hextends⟩ := extends_of_command h hnext htrail
      have hreach := h.reachable.command hnext
      cases hextends with
      | added hspots =>
          refine ⟨hreach, hlength, ?_, ?_⟩ <;> rw [hspots]
          · exact List.forall_mem_append.2 ⟨h.quiet, List.forall_mem_singleton.2 hquiet⟩
          · refine h.chain.append (.singleton _) fun x hx y hy => ?_
            rw [spots, List.getLast?_concat, Option.mem_some] at hx
            rw [List.head?_singleton, Option.mem_some] at hy
            -- the only new pair in the chain is that of the last spot and the added one
            rw [← hx, ← hy]
            exact hcontinues
      | chosen hnone hspots =>
          subst hnone
          refine ⟨hreach, hlength, ?_, ?_⟩ <;> rw [hspots]
          · exact List.forall_mem_cons.2 ⟨h.trail_length, List.forall_mem_singleton.2 hquiet⟩
          · exact List.isChain_pair.2 hcontinues
      | cleared hnone hspots =>
          subst hnone
          refine ⟨hreach, hlength, ?_, ?_⟩ <;> rw [hspots]
          · exact List.forall_mem_singleton.2 hquiet
          · exact .singleton _

/-- The last two spots are that of the last record and the present one. -/
theorem Kept.spots_eq (h : c.Kept rule) {s : Step} {steps : List Step}
    (hsteps : c.game.steps = steps ++ [s]) :
    ∃ past trail, c.past = past ++ [trail] ∧ past.length = steps.length ∧
      c.spots = past.zip (steps.map (·.before)) ++
        [(trail, s.before), (c.trail, c.game.position)] := by
  have hlength := h.length
  rcases List.eq_nil_or_concat c.past with hnone | ⟨past, trail, hpast⟩
  · simp [hnone, hsteps] at hlength
  · rw [List.concat_eq_append] at hpast
    simp only [hpast, hsteps, List.length_append, List.length_singleton,
      Nat.add_right_cancel_iff] at hlength
    refine ⟨past, trail, hpast, hlength, ?_⟩
    simp only [spots, hpast, hsteps, List.map_append, List.map_cons, List.map_nil]
    rw [List.zip_append (by simp [hlength]), List.append_assoc]
    rfl

/-- After a slide the trail ends with the present key. -/
theorem Kept.trail_of_slid (h : c.Kept rule) {s : Step} {a b : Point}
    (hlast : c.game.steps.getLast? = some s) (hslid : s.before.Slid c.game.position a b) :
    c.trail.getLast? = some c.game.position.state.key := by
  obtain ⟨steps, hsteps⟩ := List.getLast?_eq_some_iff.1 hlast
  obtain ⟨_, _, _, _, hspots⟩ := h.spots_eq hsteps
  have hchain := h.chain
  rw [hspots] at hchain
  exact (List.isChain_pair.1 hchain.right_of_append).last hslid

/-- A chronicle that takes a record back has had one spot more. -/
theorem spots_undo (h : c.Kept rule) {s : Step} {steps : List Step}
    (hsteps : c.game.steps = steps ++ [s]) :
    (c.enter .undo).past.length = steps.length ∧
      (c.enter .undo).game = withRebuiltKeys { position := s.before, steps := steps } ∧
      c.spots = (c.enter .undo).spots ++ [(c.trail, c.game.position)] := by
  obtain ⟨past, trail, hpast, hlength, hspots⟩ := h.spots_eq hsteps
  have henter : c.enter .undo =
      { game := withRebuiltKeys { position := s.before, steps := steps }
        trail := trail
        past := past } := by
    simp only [enter, undo_of_last hsteps, hpast, List.getLast?_concat, Option.getD_some,
      List.dropLast_concat]
  rw [henter, hspots]
  refine ⟨hlength, rfl, ?_⟩
  rw [spots, List.append_assoc]
  rfl

theorem enter_undo_of_nil (hsteps : c.game.steps = []) : c.enter .undo = c := by
  simp [enter, undo?, hsteps]

theorem Kept.undo (h : c.Kept rule) : (c.enter .undo).Kept rule := by
  rcases List.eq_nil_or_concat c.game.steps with hnone | ⟨steps, s, hsteps⟩
  · rwa [enter_undo_of_nil hnone]
  · rw [List.concat_eq_append] at hsteps
    obtain ⟨hlength, hgame, hspots⟩ := spots_undo h hsteps
    have hquiet := h.quiet
    have hchain := h.chain
    rw [hspots] at hquiet hchain
    refine ⟨?_, ?_, fun x hx => hquiet x (List.mem_append_left _ hx), hchain.left_of_append⟩
    · rw [hgame]
      exact h.reachable.undo (undo_of_last hsteps)
    · rw [hlength, hgame]
      rfl

theorem Kept.enter (h : c.Kept rule) (entry : Entry) : (c.enter entry).Kept rule := by
  cases entry with
  | record text => exact h.record text
  | undo => exact h.undo

/-! ## Entries that mislead -/

/-- Where the keys are the trail, only the trails before the present one are in question. -/
theorem faithful_of_keys_eq (h : c.Kept rule) (hkeys : c.game.keys = c.trail)
    (hbefore : ∀ earlier x later, c.spots = earlier ++ x :: later → earlier ≠ [] → later ≠ [] →
      x.1 = rebuildKeys (earlier.map (·.2) ++ [x.2])) : c.Faithful := by
  intro earlier x later hspots hearlier
  cases later with
  | cons y later => exact hbefore earlier x (y :: later) hspots hearlier (List.cons_ne_nil y later)
  | nil =>
      obtain ⟨_, hlast⟩ := List.append_inj' hspots rfl
      obtain rfl := List.singleton_inj.1 hlast
      rw [show (c.trail, c.game.position).1 = c.game.keys from hkeys.symm, h.keys_eq, hspots,
        List.map_append]
      rfl

theorem Faithful.record (hfaithful : c.Faithful) (h : c.Kept rule) (text : String)
    (hkeys : (c.enter (.record text)).game.keys = (c.enter (.record text)).trail) :
    (c.enter (.record text)).Faithful := by
  have hkept := h.record text
  cases hnext : c.game.command text with
  | none => simpa only [enter, hnext] using hfaithful
  | some next =>
      refine faithful_of_keys_eq hkept hkeys fun earlier x later hspots hearlier hlater => ?_
      simp only [enter, hnext] at hspots
      have hlong := congrArg List.length hspots
      have := List.length_pos_iff.2 hearlier
      have := List.length_pos_iff.2 hlater
      simp only [List.length_append, List.length_cons] at hlong
      -- a spot that is neither the first nor the last is one of those before
      cases (extends_of_command h hnext rfl).2 with
      | added hadded =>
          rcases List.eq_nil_or_concat later with hnone | ⟨later', y, hlast⟩
          · exact absurd hnone hlater
          · rw [List.concat_eq_append] at hlast
            rw [hadded, hlast, ← List.cons_append, ← List.append_assoc] at hspots
            exact hfaithful earlier x later' (List.append_inj' hspots rfl).1 hearlier
      | chosen _ hpair =>
          simp only [hpair, List.length_cons, List.length_nil] at hlong
          omega
      | cleared _ hsingle =>
          simp only [hsingle, List.length_cons, List.length_nil] at hlong
          omega

theorem Faithful.undo (hfaithful : c.Faithful) (h : c.Kept rule) : (c.enter .undo).Faithful := by
  rcases List.eq_nil_or_concat c.game.steps with hnone | ⟨steps, s, hsteps⟩
  · rwa [enter_undo_of_nil hnone]
  · rw [List.concat_eq_append] at hsteps
    obtain ⟨_, _, hspots⟩ := spots_undo h hsteps
    intro earlier x later hearly hearlier
    refine hfaithful earlier x (later ++ [(c.trail, c.game.position)]) ?_ hearlier
    rw [hspots, hearly, List.append_assoc]
    rfl

theorem keys_record_iff (h : c.Kept rule) (hkeys : c.game.keys = c.trail) (text : String) :
    (c.enter (.record text)).game.keys = (c.enter (.record text)).trail ↔
      ¬ c.game.Misleads (.record text) := by
  cases hnext : c.game.command text with
  | none => simpa [enter, hnext, Misleads] using hkeys
  | some next =>
      have hsound := h.reachable.soundAll.position
      rw [← (entered_of_command hnext).keys_eq_iff hsound (by rw [hnext]; rfl), hkeys]
      simp only [enter, hnext]

theorem Faithful.keys_undo_iff (hfaithful : c.Faithful) (h : c.Kept rule)
    (hkeys : c.game.keys = c.trail) :
    (c.enter .undo).game.keys = (c.enter .undo).trail ↔ ¬ c.game.Misleads .undo := by
  rcases List.eq_nil_or_concat c.game.steps with hnone | ⟨steps, s, hsteps⟩
  · rw [enter_undo_of_nil hnone]
    simpa [Misleads, hnone] using hkeys
  · rw [List.concat_eq_append] at hsteps
    obtain ⟨_, hgame, _⟩ := spots_undo h hsteps
    rw [(hfaithful.undo h).keys_eq_iff h.undo, hgame, Misleads, hsteps]
    show (steps = [] → s.before.state.quiet = 0) ↔ _
    cases steps with
    | nil => simp
    | cons r steps => simp

/-- One entry after a faithful chronicle whose keys are the trail. -/
theorem Faithful.enter (hfaithful : c.Faithful) (h : c.Kept rule) (hkeys : c.game.keys = c.trail)
    (entry : Entry) :
    ((c.enter entry).game.keys = (c.enter entry).trail ↔ ¬ c.game.Misleads entry) ∧
      ((c.enter entry).game.keys = (c.enter entry).trail → (c.enter entry).Faithful) := by
  cases entry with
  | record text => exact ⟨keys_record_iff h hkeys text, hfaithful.record h text⟩
  | undo => exact ⟨hfaithful.keys_undo_iff h hkeys, fun _ => hfaithful.undo h⟩

/-! ## Runs -/

theorem Kept.enterAll (h : c.Kept rule) (entries : List Entry) :
    (entries.foldl Chronicle.enter c).Kept rule := by
  induction entries generalizing c with
  | nil => exact h
  | cons entry entries ih => exact ih (h.enter entry)

/-- The keys are the trail all along exactly if no entry misleads. -/
theorem Faithful.enterAll (hfaithful : c.Faithful) (h : c.Kept rule)
    (hkeys : c.game.keys = c.trail) (entries : List Entry) :
    (∀ n, ((entries.take n).foldl Chronicle.enter c).game.keys =
        ((entries.take n).foldl Chronicle.enter c).trail) ↔
      ∀ n entry, entries[n]? = some entry →
        ¬ ((entries.take n).foldl Chronicle.enter c).game.Misleads entry := by
  -- each entry is judged by the chronicle that those before it have left
  induction entries generalizing c with
  | nil => simpa using hkeys
  | cons entry entries ih =>
      obtain ⟨hstep, hnext⟩ := hfaithful.enter h hkeys entry
      constructor
      · intro hall n
        have hthere := hall 1
        cases n with
        | zero =>
            intro other hother
            obtain rfl : entry = other := Option.some.inj hother
            exact hstep.1 hthere
        | succ n => exact (ih (hnext hthere) (h.enter entry) hthere).1 (fun m => hall (m + 1)) n
      · intro hnone n
        have hthere := hstep.2 (hnone 0 entry rfl)
        cases n with
        | zero => exact hkeys
        | succ n =>
            exact (ih (hnext hthere) (h.enter entry) hthere).2 (fun m => hnone (m + 1)) n

end Chronicle

/-- A new game has no keys and no trail. -/
theorem kept_begin (hstart : ofRule rule = .ok start) :
    Chronicle.Kept rule { game := start } ∧ Chronicle.Faithful { game := start } ∧
      start.keys = [] := by
  have hreach : Reachable rule start := .begin hstart
  obtain ⟨pos, hpos, rfl⟩ := Position.map_eq_ok_iff.1 hstart
  have hquiet := (empty_of_ofRule hpos).1
  have hspots : Chronicle.spots { game := ofPosition pos } = [([], pos)] := rfl
  refine ⟨⟨hreach, rfl, ?_, ?_⟩, ?_, rfl⟩
  · rw [hspots, List.forall_mem_singleton]
    exact hquiet.symm
  · rw [hspots]
    exact .singleton _
  · intro earlier x later hsplit hearlier
    rw [hspots] at hsplit
    have hlength := congrArg List.length hsplit
    have := List.length_pos_iff.2 hearlier
    simp only [List.length_append, List.length_cons, List.length_nil] at hlength
    omega

/-- Whatever is entered in a new game: the trail, which has one key for every slide since the last
placement, removal or new game, is as long as the count of quiet moves, and it ends with the present
key if the last record is a slide. The keys of the game are the trail, all along, exactly if no
entry misleads. -/
theorem run_keys (hstart : ofRule rule = .ok start) (entries : List Entry) :
    (run start entries).trail.length = (run start entries).game.position.state.quiet ∧
      (∀ s a b, (run start entries).game.steps.getLast? = some s →
        s.before.Slid (run start entries).game.position a b →
        (run start entries).trail.getLast? = some (run start entries).game.position.state.key) ∧
      ((∀ n, (run start (entries.take n)).game.keys = (run start (entries.take n)).trail) ↔
        ∀ n entry, entries[n]? = some entry →
          ¬ (run start (entries.take n)).game.Misleads entry) := by
  obtain ⟨hkept, hfaithful, hkeys⟩ := kept_begin hstart
  have hrun : (run start entries).Kept rule := hkept.enterAll entries
  exact ⟨hrun.trail_length, fun s a b hlast hslid => hrun.trail_of_slid hlast hslid,
    hfaithful.enterAll hkept hkeys entries⟩

/-- Records of a game with four men a side that ends with a slide. -/
def slidEntries : List Entry :=
  (["(1,1)", "(1,3)", "(2,2)", "(2,4)", "(3,5)", "(3,7)", "(1,6)", "(2,8)",
    "(1,1)->(1,2)"] : List String).map .record

/-- The game of four men a side before the first move. -/
def fourMen : Game := ofPosition (.ofVariant (.ofRule { pieceCount := 4 }))

/-- After the placements and one slide the game has the one key of the slide. -/
theorem run_keys_slide : ofRule { pieceCount := 4 } = .ok fourMen ∧
    (run fourMen slidEntries).game.keys = (run fourMen slidEntries).trail ∧
      (run fourMen slidEntries).trail.length = 1 := by
  have hstart : ofRule { pieceCount := 4 } = .ok fourMen := rfl
  obtain ⟨hlength, _, hkeys⟩ := run_keys hstart slidEntries
  have hnone : ∀ n ∈ List.range 9, ∀ entry ∈ slidEntries[n]?,
      ¬ (run fourMen (slidEntries.take n)).game.Misleads entry := by
    decide +kernel
  have hlast := hkeys.2 (fun n entry hentry =>
    hnone n (List.mem_range.2 (List.getElem?_eq_some_iff.1 hentry).1) entry hentry) 9
  rw [List.take_of_length_le (show slidEntries.length ≤ 9 by decide)] at hlast
  have hquiet : (run fourMen slidEntries).game.position.state.quiet = 1 := by decide +kernel
  exact ⟨hstart, hlast, hlength.trans hquiet⟩

/-- Not every game has the keys of its slides: when Twelve Men's Morris is chosen after the slide
and the choice is taken back, the key of the slide is gone, and the count of quiet moves is not. -/
theorem not_forall_run_keys :
    ¬ ∀ (rule : Rule) (start : Game) (entries : List Entry), ofRule rule = .ok start →
      (run start entries).game.keys = (run start entries).trail ∧
        (run start entries).game.keys.length =
          (run start entries).game.position.state.quiet := by
  intro hall
  obtain ⟨_, hlength⟩ :=
    hall { pieceCount := 4 } fourMen (slidEntries ++ [.record "r2 s0 t0", .undo]) rfl
  have hkeys : (run fourMen (slidEntries ++ [.record "r2 s0 t0", .undo])).game.keys.length = 0 ∧
      (run fourMen (slidEntries ++ [.record "r2 s0 t0", .undo])).game.position.state.quiet = 1 := by
    decide +kernel
  omega

end Game

end Morris
