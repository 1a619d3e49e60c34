import Pathwise.Coverage.Criterion
import Pathwise.FlowGraph.Enumeration

/-!
Obligations: the single things that a criterion asks of a test suite, and when a path meets them.
-/

namespace Pathwise

inductive Obligation
  | node (n : Node)
  | arc (a : Arc)
  | path (p : Path)
  | duPath (d : DuPath)
  | definition (d : DefSite)
  | use (u : DefUse)
  deriving DecidableEq, Repr

/-- A path with the definitions and uses that it exercises, which are found when first asked for. -/
structure Footprint where
  path : Path
  exercised : Thunk (List DefUse)

def Facts.footprint (f : Facts) (p : Path) : Footprint :=
  ⟨p, Thunk.mk fun _ => f.accesses.exercised p⟩

namespace Obligation

def isMetBy (t : Footprint) : Obligation → Bool
  | node n => t.path.contains n
  | arc a => t.path.arcs.contains a
  | path p => t.path == p
  | duPath d => occursIn d.path t.path
  | definition d => t.exercised.get.any (·.site = d)
  | use u => t.exercised.get.contains u

def render : Obligation → String
  | node n => "node " ++ n.render
  | arc a => "edge " ++ a.render
  | path p => "path " ++ p.render
  | duPath d => "du-path " ++ d.render
  | definition d => "def of " ++ d.var ++ " at " ++ d.node.render
  | use u => "use of " ++ u.var ++ " at " ++ u.use.render ++ " from " ++ u.definition.render

end Obligation

/-- What the criterion asks for, in increasing order. -/
def Facts.obligations (f : Facts) : Criterion → List Obligation
  | .assignments => f.assignmentNodes.map .node
  | .decisions => f.decisionArcs.map .arc
  | .boundedPaths k => (ascending (f.graph.boundedPaths k).toList).map .path
  | .loopPaths i => (ascending (f.graph.loopPaths i).toList).map .path
  | .duPaths => f.duPaths.map .duPath
  | .definitions => f.defSites.map .definition
  | .uses => f.defUses.map .use
  | .distance k => (f.within k).map .node

end Pathwise
