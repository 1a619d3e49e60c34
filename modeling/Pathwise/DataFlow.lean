import Pathwise.Backtracking
import Pathwise.FlowGraph.Basic

/-!
Where variables are written and read, and the paths that carry a value from a definition to a use.

A node writes what the actions on its outgoing edges write, and reads what the guards and actions on
them read. A node that reads and writes a variable reads it first, so it is a use of the old value.
-/

namespace Pathwise

/-- A path from a definition of a variable to a use of it. -/
structure DuPath where
  var : String
  path : Path
  deriving DecidableEq, Repr

/-- A node at which a variable is defined. -/
structure DefSite where
  var : String
  node : Node
  deriving DecidableEq, Repr

/-- A definition of a variable and a use that it reaches. -/
structure DefUse where
  var : String
  definition : Node
  use : Node
  deriving DecidableEq, Repr

namespace DuPath

def render (d : DuPath) : String :=
  d.var ++ ": " ++ d.path.render

/-- The ends of the path. -/
def defUse? (d : DuPath) : Option DefUse :=
  match d.path.head?, d.path.getLast? with
  | some a, some b => some ⟨d.var, a, b⟩
  | _, _ => none

instance : Ord DuPath := ⟨compareLex (compareOn var) (compareOn path)⟩

end DuPath

namespace DefSite

instance : Ord DefSite := ⟨compareLex (compareOn var) (compareOn node)⟩

end DefSite

namespace DefUse

def site (d : DefUse) : DefSite := ⟨d.var, d.definition⟩

instance : Ord DefUse := ⟨compareLex (compareOn site) (compareOn use)⟩

end DefUse

namespace FlowGraph

/-- The variables written on the way out of `n`. -/
def defs (g : FlowGraph) (n : Node) : List String :=
  ascending ((g.outgoing n).filterMap (·.action.defined?))

/-- The variables read on the way out of `n`. -/
def refs (g : FlowGraph) (n : Node) : List String :=
  ascending ((g.outgoing n).flatMap fun e => e.guard.occurrences ++ e.action.occurrences)

end FlowGraph

/-- The variables that one node writes and reads. -/
structure Access where
  node : Node
  defs : List String
  refs : List String
  deriving DecidableEq, Repr

/-- The accesses of all nodes of a graph. -/
abbrev Accesses := List Access

namespace Accesses

def ofGraph (g : FlowGraph) : Accesses :=
  g.nodes.map fun n => ⟨n, g.defs n, g.refs n⟩

def defines (t : Accesses) (n : Node) (x : String) : Bool :=
  match t.find? (·.node = n) with
  | some a => a.defs.contains x
  | none => false

def uses (t : Accesses) (n : Node) (x : String) : Bool :=
  match t.find? (·.node = n) with
  | some a => a.refs.contains x
  | none => false

/-- Each variable for which `f` lists it at some node, with those nodes. -/
def byVariable (t : Accesses) (f : Access → List String) : List (String × List Node) :=
  (ascending (t.flatMap f)).map fun x =>
    (x, ascending ((t.filter fun a => (f a).contains x).map (·.node)))

/-- Each variable with the nodes that define it. -/
def definitions (t : Accesses) : List (String × List Node) := t.byVariable (·.defs)

/-- Each variable with the nodes that use it. -/
def references (t : Accesses) : List (String × List Node) := t.byVariable (·.refs)

end Accesses

namespace FlowGraph

/-- The continuations of a path into `n` that end at the first use of `x`. The nodes before `n`, latest
first, are in `earlier`. A path is given up at the exit, at a new definition of `x` and at a node it
has passed, so it never grows beyond the number of nodes. -/
def usePaths (g : FlowGraph) (t : Accesses) (x : String) : Nat → List Node → Node → List Path
  | 0, _, _ => []
  | depth + 1, earlier, n =>
    if t.uses n x then [(n :: earlier).reverse]
    else if n = .exit ∨ t.defines n x ∨ n ∈ earlier then []
    else (g.successors n).flatMap (g.usePaths t x depth (n :: earlier))

/-- The walk to the same paths from a definition at `n` that keeps one path. A node that is a use ends a
path and is not put on it; the walk passes over the nodes where a path is given up. -/
def useWalk (g : FlowGraph) (t : Accesses) (x : String) (n : Node) : Backtracker Node Node Path where
  visit _ path m :=
    if t.uses m x then .pass (some (path ++ [m]))
    else if m = .exit ∨ t.defines m x ∨ m ∈ path then .pass none
    else .enter m none (g.successors m)
  stack := (g.successors n).map (1, ·)
  path := [n]

/-- The paths from the definition of `x` at `n` to a first use of it. -/
def duPathsFrom (g : FlowGraph) (t : Accesses) (x : String) (n : Node) : List DuPath :=
  ((g.successors n).flatMap (g.usePaths t x g.nodes.length [n])).map (⟨x, ·⟩)

/-- All paths from a definition to a first use of it, by variable and then by path. -/
def duPaths (g : FlowGraph) : List DuPath :=
  let t := Accesses.ofGraph g
  ascending (t.definitions.flatMap fun d => d.2.flatMap (g.duPathsFrom t d.1))

end FlowGraph

/-- The definitions and uses that the paths join. -/
def defUses (ds : List DuPath) : List DefUse :=
  ascending (ds.filterMap (·.defUse?))

/-- The definitions that reach a use. -/
def defSites (us : List DefUse) : List DefSite :=
  ascending (us.map (·.site))

end Pathwise
