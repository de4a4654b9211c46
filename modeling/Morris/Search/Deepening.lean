import Morris.Search.Algorithm

/-!
# Iterative deepening

A position is searched to growing depths, each search starting from the value of the one before,
until the greatest depth is done, the only legal move is found, or the time is up. A search that was
stopped midway counts only if nothing better is known.
-/

set_option autoImplicit false

namespace Morris.Search

/-- Result of searches to growing depths. -/
structure Report where
  value : Int := 0
  move : Move := .none
  unique : Bool := false
  /-- Depth of the last search that counts. -/
  depth : Int := 0
  /-- Whether no stop and no limit of time cut the searches short. -/
  completed : Bool := false
  deriving DecidableEq, Repr, Inhabited

namespace Report

/-- Take over the result of a search. -/
def accept (report : Report) (r : Result) (depth : Int) : Report :=
  { report with value := r.value, move := r.move, unique := r.unique, depth := depth }

end Report

/-- The depths to search: with deepening all from two up to the greatest, else only the greatest. -/
def depths (deepening : Bool) (maxDepth : Int) : List Int :=
  let before := if deepening then List.range (maxDepth - 2).toNat else []
  before.map (fun (i : Nat) => (i : Int) + 2) ++ [maxDepth]

/-- Search to the depths of a list in turn. -/
def deepen (search : Int → Option Int → Walk → Result × Walk) (timeIsUp : Bool) :
    List Int → Option Int → Report → Walk → Report × Walk
  | [], _, report, w => ({ report with completed := true }, w)
  | depth :: rest, guess, report, w =>
      let (r, w) := search depth guess w
      if w.stopped then
        (if !report.move.isProper && r.move.isProper then report.accept r depth else report, w)
      else
        let report := report.accept r depth
        if r.unique then ({ report with completed := true }, w)
        else if timeIsUp then (report, w)
        else deepen search timeIsUp rest (some r.value) report w

/-- Search a position by iterative deepening, or, without it, to the greatest depth at once, with a
workforce for an algorithm that splits the root. The greatest depth is kept between one and
`depthLimit`. -/
def iterateAmong (workforce : Workforce) (a : Algorithm) (threads : Nat) (setup : Setup)
    (maxDepth : Int) (deepening : Bool) (w : Walk) : Report × Walk :=
  let greatest := max 1 (min maxDepth depthLimit)
  deepen (a.searchAmong workforce threads setup) setup.timeIsUp (depths deepening greatest) none {}
    w

/-- Search a position by iterative deepening, or, without it, to the greatest depth at once. -/
def iterate (a : Algorithm) (threads : Nat) (setup : Setup) (maxDepth : Int) (deepening : Bool)
    (w : Walk) : Report × Walk :=
  iterateAmong inTurn a threads setup maxDepth deepening w

end Morris.Search
