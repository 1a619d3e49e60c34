import Pathwise.FlowGraph.Run
import Pathwise.PathCondition
import Pathwise.Constraint.Search

/-!
Test cases: the initial values and inputs under which a program takes a path.
-/

namespace Pathwise

structure TestCase where
  path : Path := []
  initial : Env := .empty
  inputs : List Int64 := []
  inputVars : List String := []
  deriving DecidableEq

namespace TestCase

/-- Whether anything can be chosen for the test. -/
def hasChoice (t : TestCase) : Bool :=
  t.initial.size != 0 || !t.inputs.isEmpty

/-- Every variable with the value it first gets: its initial value, or else its first input. -/
def assignment (t : TestCase) : Env :=
  (t.inputVars.zip t.inputs).foldl
    (fun env (x, n) => if env.contains x then env else env.insert x (.int n)) t.initial

def render (t : TestCase) : String :=
  let initial := t.initial.bindings.map fun (x, v) => x ++ " = " ++ v.render
  let inputs := t.inputs.map fun n => toString n.toInt
  "\x7b" ++ ", ".intercalate initial ++ "\x7d" ++
    if t.inputs.isEmpty then "" else " inputs [" ++ ", ".intercalate inputs ++ "]"

/-- The machine on which the test starts. -/
def machine (t : TestCase) : Machine :=
  { env := t.initial, inputs := t.inputs }

end TestCase

/-- Whether a path can be taken. -/
inductive Feasibility
  | feasible (t : TestCase)
  | infeasible
  | unknown (d : Doubt)
  deriving DecidableEq

namespace PathCondition

/-- The test case that a model of the condition describes. -/
def testCase (c : PathCondition) (p : Path) (m : Model) : TestCase where
  path := p
  initial := .ofList (c.initial.filterMap fun (x, s) => (m.get? s).map (x, ·))
  inputs := c.inputs.filterMap fun (_, s) => m.int? s
  inputVars := c.inputs.map (·.1)

end PathCondition

/-- Why there is no telling whether a path has a test. -/
inductive GenerationError
  | path (e : PathError)
  | inconclusive (d : Doubt)
  deriving DecidableEq, Repr

def GenerationError.message : GenerationError → String
  | .path e => e.message
  | .inconclusive d => "solver inconclusive: " ++ d.message

/-- The limits of one solve after the other. Every solve has a budget of its own, so solving a path again
may come to another answer. -/
def SolveLimits := Nat → SearchLimits

instance : Coe SearchLimits SolveLimits := ⟨fun l _ => l⟩

namespace FlowGraph

/-- Find a test that takes `p`, or that there is none. -/
def solvePath (g : FlowGraph) (l : SearchLimits) (p : Path) : Except PathError Feasibility := do
  let c ← g.pathCondition p
  return match c.problem.solve l with
    | .sat m => .feasible (c.testCase p m)
    | .unsat => .infeasible
    | .unknown d => .unknown d

/-- A test that takes `p`, if one exists. -/
def generateTest (g : FlowGraph) (l : SearchLimits) (p : Path) :
    Except GenerationError (Option TestCase) :=
  match g.solvePath l p with
  | .error e => .error (.path e)
  | .ok (.feasible t) => .ok (some t)
  | .ok .infeasible => .ok none
  | .ok (.unknown d) => .error (.inconclusive d)

/-- The tests that are found for the paths, which are solved one after the other. -/
def generateTests (g : FlowGraph) (l : SolveLimits) (ps : List Path) : List TestCase :=
  ps.zipIdx.filterMap fun (p, n) =>
    match g.solvePath (l n) p with
    | .ok (.feasible t) => some t
    | _ => none

/-- Run a test in at most `limit` steps. -/
def runTest (g : FlowGraph) (limit : Nat) (t : TestCase) : Run :=
  g.run limit t.machine

/-- The paths that the tests take, where they come to an end. -/
def executedPaths (g : FlowGraph) (limit : Nat) (ts : List TestCase) : List Path :=
  ts.filterMap fun t => (g.runTest limit t).result.toOption

end FlowGraph

end Pathwise
