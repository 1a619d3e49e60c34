import Pathwise.Coverage.Obligation
import Pathwise.TestCase
import Std.Data.TreeMap.Basic

/-!
Test suites that answer every obligation of a criterion.

The candidates are the paths within the limits, the shortest first. An obligation is answered from the
candidates that meet it, as far as its share of candidates goes: by the test of the first one that can
be taken, or else by what is known of the others.
-/

namespace Pathwise

/-- Bounds on the candidates: edges of a path, body entries per loop run, and candidates that are tried
for one obligation. -/
structure SuiteLimits where
  edges : Nat := 20
  loopEntries : Nat := 2
  perObligation : Nat := 64
  deriving DecidableEq, Repr

/-- Why an obligation stays open. -/
inductive Shortfall
  | doubt (d : Doubt)
  | unsolved
  | candidateLimit
  deriving DecidableEq, Repr

def Shortfall.message : Shortfall → String
  | .doubt d => d.message
  | .unsolved => "path not solved"
  | .candidateLimit => "candidate limit reached"

inductive Verdict
  | testFound (t : TestCase)
  | infeasible
  | inconclusive (s : Shortfall)
  | unreachable
  deriving DecidableEq

namespace Verdict

def test? : Verdict → Option TestCase
  | testFound t => some t
  | _ => none

def render : Verdict → String
  | testFound t => "test found: " ++ t.render
  | infeasible => "proven infeasible"
  | inconclusive s => "inconclusive (" ++ s.message ++ ")"
  | unreachable => "unreachable"

end Verdict

/-- The verdict on every obligation of a criterion. -/
structure SuiteReport where
  criterion : Criterion
  verdicts : List (Obligation × Verdict)

namespace SuiteReport

def found (r : SuiteReport) : Nat :=
  r.verdicts.countP fun v => match v.2 with | .testFound _ => true | _ => false

def infeasible (r : SuiteReport) : Nat :=
  r.verdicts.countP fun v => match v.2 with | .infeasible => true | _ => false

def inconclusive (r : SuiteReport) : Nat :=
  r.verdicts.countP fun v => match v.2 with | .inconclusive _ => true | _ => false

def unreachable (r : SuiteReport) : Nat :=
  r.verdicts.countP fun v => match v.2 with | .unreachable => true | _ => false

def verdict? (r : SuiteReport) (o : Obligation) : Option Verdict :=
  r.verdicts.lookup o

/-- The tests of the suite, one for each path. -/
def tests (r : SuiteReport) : List TestCase :=
  distinctBy (·.path) (r.verdicts.filterMap (·.2.test?))

def render (r : SuiteReport) : String :=
  r.criterion.render ++ s!": {r.found} found, {r.infeasible} infeasible, " ++
    s!"{r.inconclusive} inconclusive, {r.unreachable} unreachable\n" ++
    String.join (r.verdicts.map fun (o, v) => "  " ++ o.render ++ ": " ++ v.render ++ "\n")

end SuiteReport

/-- What is known of the paths that were solved. -/
abbrev Outcomes := Std.TreeMap Path Feasibility compare

namespace Outcomes

def test? (t : Outcomes) (p : Path) : Option TestCase :=
  match t[p]? with
  | some (.feasible c) => some c
  | _ => none

def shortfall? (t : Outcomes) (p : Path) : Option Shortfall :=
  match t[p]? with
  | some (.unknown d) => some (.doubt d)
  | none => some .unsolved
  | _ => none

/-- The verdict from the paths that were tried; `truncated` says that there were more. -/
def verdict (t : Outcomes) (paths : List Path) (truncated : Bool) : Verdict :=
  if paths.isEmpty then .unreachable
  else
    match paths.findSome? t.test?, paths.findSome? t.shortfall? with
    | some c, _ => .testFound c
    | none, some s => .inconclusive s
    | none, none => if truncated then .inconclusive .candidateLimit else .infeasible

/-- Solve the paths in order, up to the first that has no condition. -/
def solve (g : FlowGraph) (l : SolveLimits) (paths : List Path) : Except PathError Outcomes :=
  paths.zipIdx.foldlM (fun t (p, n) => do return t.insert p (← g.solvePath (l n) p)) ∅

end Outcomes

/-- The paths to be tried for an obligation, and whether more would meet it. -/
structure Quota where
  obligation : Obligation
  paths : List Path
  truncated : Bool

namespace Facts

/-- The paths that a criterion names itself. -/
def namedPaths (f : Facts) : Criterion → List Path
  | .boundedPaths k => (f.graph.boundedPaths k).toList
  | .loopPaths i => (f.graph.loopPaths i).toList
  | _ => []

/-- The paths within the limits and those that the criterion names, each once, the shortest first. -/
def candidates (f : Facts) (b : SuiteLimits) (c : Criterion) : List Path :=
  let paths := (f.graph.boundedPaths b.edges).toList ++ (f.graph.loopPaths b.loopEntries).toList ++
    f.namedPaths c
  shortestFirst (distinct paths)

/-- The first candidates that meet the obligation, as many as one obligation is given. -/
def quota (b : SuiteLimits) (candidates : List Footprint) (o : Obligation) : Quota :=
  let meeting := candidates.filter fun t => o.isMetBy t
  { obligation := o
    paths := (meeting.take b.perObligation).map (·.path)
    truncated := decide (b.perObligation < meeting.length) }

/-- Answer every obligation of the criterion. A path is solved once, and all obligations for which it is
tried are answered from that. -/
def generateSuite (f : Facts) (b : SuiteLimits) (l : SolveLimits) (c : Criterion) :
    Except PathError SuiteReport := do
  let candidates := (f.candidates b c).map f.footprint
  let quotas := (f.obligations c).map (quota b candidates)
  let outcomes ← Outcomes.solve f.graph l (ascending (quotas.flatMap (·.paths)))
  return ⟨c, quotas.map fun q => (q.obligation, outcomes.verdict q.paths q.truncated)⟩

end Facts

end Pathwise
