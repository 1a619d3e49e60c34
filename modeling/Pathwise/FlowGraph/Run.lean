import Pathwise.FlowGraph.Basic

/-!
Running a flow graph: from each node the first edge whose guard holds is taken and its action
performed, until the exit is reached.
-/

namespace Pathwise

/-- Why a run did not reach the exit. -/
inductive RunError
  | fault (node : Node) (cause : Fault)
  | stepLimit (limit : Nat)
  | stuck (node : Node)
  deriving DecidableEq, Repr

def RunError.message : RunError → String
  | .fault n f => "evaluation failed at node " ++ n.render ++ ": " ++ f.message
  | .stepLimit n => s!"step limit of {n} exceeded"
  | .stuck n => "no enabled edge leaves node " ++ n.render

/-- The machine that a run left, and the path that it took to the exit if it got there. -/
structure Run where
  machine : Machine
  result : Except RunError Path

namespace FlowGraph

/-- The first of the edges whose guard holds. Guards are evaluated in order up to that one. -/
def firstEnabled (env : Env) : List Edge → Except Fault (Option Edge)
  | [] => .ok none
  | e :: rest => do
    if ← e.guard.eval env then return some e else firstEnabled env rest

/-- One step from `n`: the node it leads to and the machine after the action. -/
def step (g : FlowGraph) (n : Node) (m : Machine) : Except RunError (Node × Machine) :=
  match firstEnabled m.env (g.outgoing n) with
  | .error f => .error (.fault n f)
  | .ok none => .error (.stuck n)
  | .ok (some e) =>
    match e.action.perform m with
    | .error f => .error (.fault n f)
    | .ok m' => .ok (e.target, m')

/-- Go on from `n` with `left` steps of `limit` to go; `earlier` holds the nodes before `n`, the
latest first. -/
def runFrom (g : FlowGraph) (limit : Nat) : Nat → List Node → Node → Machine → Run
  | left, earlier, n, m =>
    if n = .exit then ⟨m, .ok (n :: earlier).reverse⟩
    else
      match left with
      | 0 => ⟨m, .error (.stepLimit limit)⟩
      | left + 1 =>
        match g.step n m with
        | .error e => ⟨m, .error e⟩
        | .ok (n', m') => runFrom g limit left (n :: earlier) n' m'

/-- Run the graph from its entry, taking at most `limit` steps. -/
def run (g : FlowGraph) (limit : Nat) (m : Machine) : Run :=
  g.runFrom limit limit [] .entry m

end FlowGraph

end Pathwise
