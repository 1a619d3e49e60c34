import Pathwise.FlowGraph.Distance
import Pathwise.FlowGraph.Nesting
import Pathwise.DataFlow

/-!
What is known of a flow graph without running it, gathered once.
-/

namespace Pathwise

namespace FlowGraph

/-- The nodes of assignments. -/
def assignmentNodes (g : FlowGraph) : List Node :=
  ascending ((g.edges.filter (·.action.isAssign)).map (·.source))

/-- The arcs of edges that are taken under a condition. -/
def decisionArcs (g : FlowGraph) : List Arc :=
  ascending ((g.edges.filter (!·.guard.isTrue)).map (·.arc))

/-- The nodes to which a decision leads. -/
def decisionNodes (g : FlowGraph) : List Node :=
  ascending (g.decisionArcs.map (·.target))

end FlowGraph

structure Facts where
  graph : FlowGraph
  accesses : Accesses
  assignmentNodes : List Node
  decisionArcs : List Arc
  distances : List (Node × Nat)
  duPaths : List DuPath
  defUses : List DefUse

def FlowGraph.facts (g : FlowGraph) : Facts :=
  let duPaths := g.duPaths
  { graph := g
    accesses := .ofGraph g
    assignmentNodes := g.assignmentNodes
    decisionArcs := g.decisionArcs
    distances := g.distances
    duPaths := duPaths
    defUses := defUses duPaths }

namespace Facts

/-- The nodes at most `k` steps from the entry. -/
def within (f : Facts) (k : Nat) : List Node :=
  (f.distances.filter (·.2 ≤ k)).map (·.1)

/-- The definitions that reach a use. -/
def defSites (f : Facts) : List DefSite :=
  Pathwise.defSites f.defUses

end Facts

end Pathwise
