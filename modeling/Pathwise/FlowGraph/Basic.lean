import Pathwise.FlowGraph.Node
import Pathwise.Machine

/-!
Flow graphs. An edge leaves a node under a guard and performs an action on the way; the statement that
a node stands for is the action of the edges that leave it.
-/

namespace Pathwise

/-- Which way out of its source an edge is. -/
inductive Way
  | next
  | thenArm
  | elseArm
  | body
  | leave
  deriving DecidableEq, Repr

/-- What kind of decision a node makes. -/
inductive Decision
  | choice
  | loop
  deriving DecidableEq, Repr

namespace Way

/-- Whether the edge is taken when the condition of its source fails. -/
def isSecond : Way → Bool
  | elseArm | leave => true
  | next | thenArm | body => false

def decision? : Way → Option Decision
  | next => none
  | thenArm | elseArm => some .choice
  | body | leave => some .loop

end Way

structure Edge where
  source : Node
  target : Node
  guard : Cond
  action : Action
  way : Way
  deriving DecidableEq, Repr

namespace Edge

def arc (e : Edge) : Arc := ⟨e.source, e.target⟩

def render (e : Edge) : String :=
  e.arc.render ++ " [" ++ e.guard.render ++ " / " ++ e.action.render ++ "]"

end Edge

/-- Nodes and edges in the order in which they were created. -/
structure FlowGraph where
  nodes : List Node
  edges : List Edge
  deriving DecidableEq, Repr

namespace FlowGraph

def contains (g : FlowGraph) : Node → Bool
  | .point l => g.nodes.contains (.point l)
  | .entry | .exit => true

/-- The edges that leave `n`, those taken when its condition holds first. -/
def outgoing (g : FlowGraph) (n : Node) : List Edge :=
  let out := g.edges.filter (·.source = n)
  out.filter (!·.way.isSecond) ++ out.filter (·.way.isSecond)

/-- The nodes one step after `n`, each once, in the order of the edges that leave `n`. -/
def successors (g : FlowGraph) (n : Node) : List Node :=
  ((g.outgoing n).map (·.target)).eraseDups

/-- The nodes one step before `n`, each once, in the order of the edges of the graph. -/
def predecessors (g : FlowGraph) (n : Node) : List Node :=
  ((g.edges.filter (·.target = n)).map (·.source)).eraseDups

def edgesBetween (g : FlowGraph) (a b : Node) : List Edge :=
  (g.outgoing a).filter (·.target = b)

/-- The decision that `n` makes, told by the first way out of it. -/
def decision? (g : FlowGraph) (n : Node) : Option Decision :=
  (g.outgoing n).head?.bind (·.way.decision?)

def isLoopHeader (g : FlowGraph) (n : Node) : Bool :=
  g.decision? n == some .loop

/-- Where the edge out of `n` along the given way leads. -/
def follow? (g : FlowGraph) (n : Node) (w : Way) : Option Node :=
  ((g.outgoing n).find? (·.way = w)).map (·.target)

/-- Where a loop header goes into its body. -/
def loopBody? (g : FlowGraph) (n : Node) : Option Node := g.follow? n .body

/-- Where a loop header leaves its loop. -/
def loopExit? (g : FlowGraph) (n : Node) : Option Node := g.follow? n .leave

/-- The pairs of nodes joined by an edge, in increasing order. -/
def arcs (g : FlowGraph) : List Arc :=
  ascending (g.edges.map (·.arc))

/-- Whether every step of `p` follows an edge. -/
def isPath (g : FlowGraph) (p : Path) : Bool :=
  p.arcs.all fun a => !(g.edgesBetween a.source a.target).isEmpty

def render (g : FlowGraph) : String :=
  String.join (g.nodes.flatMap fun n => (g.outgoing n).map fun e => e.render ++ "\n")

end FlowGraph

end Pathwise
