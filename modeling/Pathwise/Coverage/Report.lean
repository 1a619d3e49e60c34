import Pathwise.Coverage.Criterion
import Pathwise.FlowGraph.Enumeration
import Pathwise.Decimal

/-!
How far executed paths cover a flow graph.

For each criterion the report lists what the paths leave uncovered. The executed paths are arbitrary
sequences of nodes: whether they follow the graph does not matter.
-/

namespace Pathwise

structure Report (α : Type) where
  criterion : Criterion
  total : Nat
  uncovered : List α

namespace Report

variable {α : Type}

def covered (r : Report α) : Nat := r.total - r.uncovered.length

def isComplete (r : Report α) : Bool := r.uncovered.isEmpty

/-- The part that is covered; where there is nothing to cover, everything is. -/
def ratio (r : Report α) : Float :=
  if r.total = 0 then 1.0 else 1.0 - Float.ofNat r.uncovered.length / Float.ofNat r.total

def render (r : Report α) : String :=
  r.criterion.render ++ s!": {r.covered}/{r.total} covered (" ++
    Decimal.tenths (r.ratio * 100.0) ++ "%)"

/-- What of `expected` is not among `met`. -/
def ofDifference [Ord α] (c : Criterion) (expected met : List α) : Report α :=
  ⟨c, expected.length, without expected met⟩

/-- The definitions of which some path to a use is uncovered. -/
def remainingSites (r : Report DuPath) : List DefSite :=
  defSites (defUses r.uncovered)

end Report

namespace Facts

def assignmentReport (f : Facts) (executed : List Path) : Report Node :=
  .ofDifference .assignments f.assignmentNodes executed.flatten

def decisionReport (f : Facts) (executed : List Path) : Report Arc :=
  .ofDifference .decisions f.decisionArcs (executed.flatMap (·.arcs))

def boundedPathReport (f : Facts) (executed : List Path) (k : Nat) : Report Path :=
  .ofDifference (.boundedPaths k) (ascending (f.graph.boundedPaths k).toList) executed

def loopPathReport (f : Facts) (executed : List Path) (i : Nat) : Report Path :=
  .ofDifference (.loopPaths i) (ascending (f.graph.loopPaths i).toList) executed

def duPathReport (f : Facts) (executed : List Path) : Report DuPath where
  criterion := .duPaths
  total := f.duPaths.length
  uncovered := f.duPaths.filter fun d => !executed.any (occursIn d.path)

/-- The definitions and uses that some of the paths exercises. -/
def exercised (f : Facts) (executed : List Path) : List DefUse :=
  executed.flatMap f.accesses.exercised

def definitionReport (f : Facts) (executed : List Path) : Report DefSite :=
  .ofDifference .definitions f.defSites ((f.exercised executed).map (·.site))

def useReport (f : Facts) (executed : List Path) : Report DefUse :=
  .ofDifference .uses f.defUses (f.exercised executed)

def distanceReport (f : Facts) (executed : List Path) (k : Nat) : Report Node :=
  .ofDifference (.distance k) (f.within k) executed.flatten

end Facts

/-- The reports of all criteria. -/
structure Summary where
  assignments : Report Node
  decisions : Report Arc
  boundedPaths : Report Path
  loopPaths : Report Path
  duPaths : Report DuPath
  definitions : Report DefSite
  uses : Report DefUse
  distance : Report Node

/-- Check the paths against every criterion, with paths of `k` edges, `i` body entries per loop run, and
nodes at most `k` steps away. -/
def Facts.summary (f : Facts) (executed : List Path) (k i : Nat) : Summary where
  assignments := f.assignmentReport executed
  decisions := f.decisionReport executed
  boundedPaths := f.boundedPathReport executed k
  loopPaths := f.loopPathReport executed i
  duPaths := f.duPathReport executed
  definitions := f.definitionReport executed
  uses := f.useReport executed
  distance := f.distanceReport executed k

namespace Summary

/-- What `f` makes of each report, in a fixed order. -/
def map {β : Type} (s : Summary) (f : {α : Type} → Report α → β) : List β :=
  [f s.assignments, f s.decisions, f s.boundedPaths, f s.loopPaths, f s.duPaths, f s.definitions,
    f s.uses, f s.distance]

def ratios (s : Summary) : List (Criterion × Float) :=
  s.map fun r => (r.criterion, r.ratio)

def render (s : Summary) : String :=
  "\n".intercalate (s.map Report.render)

end Summary

end Pathwise
