import Pathwise.FlowGraph.Nesting
import Pathwise.Backtracking
import Pathwise.Enumeration

/-!
Enumerations of the paths from entry to exit: those of a bounded number of edges, and those that enter
every loop body a bounded number of times.

Both go depth first. At a choice the second arm comes before the first, and at a loop header the body
comes before the way out. The states of an enumeration keep their own paths; a walk to the same paths keeps
one path for all its frames.
-/

namespace Pathwise

namespace FlowGraph

/-- The nodes after `n` in the order in which paths through them are listed. -/
def exploreOrder (g : FlowGraph) (n : Node) : List Node :=
  if g.decision? n = some .choice then (g.successors n).reverse else g.successors n

end FlowGraph

/-- A path from the entry to `node`; the nodes before it are kept latest first. -/
structure Trail where
  node : Node
  earlier : List Node

namespace Trail

def start : Trail := ⟨.entry, []⟩

def extend (t : Trail) (n : Node) : Trail := ⟨n, t.node :: t.earlier⟩

def path (t : Trail) : Path := (t.node :: t.earlier).reverse

/-- The path, once it has arrived at the exit. -/
def complete? (t : Trail) : Option Path :=
  if t.node = .exit then some t.path else none

end Trail

/-- A walk comes to `n`: the exit ends the path, and from another node it goes on. -/
def Visit.arrive {φ : Type} (path : Path) (n : Node) (behind : List φ) : Visit φ Node Path :=
  if n = .exit then .enter n (some (path ++ [n])) [] else .enter n none behind

namespace FlowGraph

/-- The paths from entry to exit of at most `k` edges. -/
def boundedPaths (g : FlowGraph) (k : Nat) : Enumeration Trail Path where
  rule :=
    { result? := Trail.complete?
      children := fun t => (g.exploreOrder t.node).map t.extend }
  waiting := [(k, .start)]

/-- The walk to the paths of at most `k` edges that keeps one path: a node at depth `k` comes after `k`
edges, and the walk does not go on from there. -/
def boundedWalk (g : FlowGraph) (k : Nat) : Backtracker Node Node Path where
  visit depth path n := .arrive path n (if k ≤ depth then [] else g.exploreOrder n)
  stack := [(0, .entry)]
  path := []

/-- The number of times each loop body was entered since the loop was last reached from outside; a loop
that is not listed counts none. -/
abbrev LoopCounts := List (Node × Nat)

namespace LoopCounts

def of (c : LoopCounts) (n : Node) : Nat := (c.lookup n).getD 0

/-- Arrival at the loop header `n`: the loops inside start anew, and a body entry is counted while
fewer than `i` have been. -/
def arrive (c : LoopCounts) (i : Nat) (n : Node) (inner : List Node) : LoopCounts :=
  let others := c.filter fun e => e.1 ∉ inner
  if c.of n < i then (n, c.of n + 1) :: others.filter (·.1 ≠ n) else others

end LoopCounts

/-- What comes after `n` when every loop body may be entered `i` times: a loop header leads into its body
while the count allows, and always out of the loop. -/
def loopWays (g : FlowGraph) (nesting : List (Node × List Node)) (i : Nat) (n : Node) (c : LoopCounts) :
    List (Node × LoopCounts) :=
  match g.loopBody? n, g.loopExit? n with
  | some body, some behind =>
    let arrived := c.arrive i n ((nesting.lookup n).getD [])
    if c.of n < i then [(body, arrived), (behind, arrived)] else [(behind, arrived)]
  | _, _ => (g.exploreOrder n).map (·, c)

/-- A trail with the counts of the loops that it is in. -/
structure CountedTrail where
  trail : Trail
  entered : LoopCounts

def CountedTrail.count (t : CountedTrail) (n : Node) : Nat := t.entered.of n

/-- What comes after a trail when every loop body may be entered `i` times. -/
def loopChildren (g : FlowGraph) (nesting : List (Node × List Node)) (i : Nat)
    (t : CountedTrail) : List CountedTrail :=
  (g.loopWays nesting i t.trail.node t.entered).map fun q => ⟨t.trail.extend q.1, q.2⟩

/-- No path with at most `i` body entries per loop run is longer: each node stands on it at most
`i + 1` times for every loop. -/
def loopDepth (g : FlowGraph) (i : Nat) : Nat :=
  g.nodes.length * Nat.pow (i + 1) g.loopHeaders.length

/-- The paths from entry to exit that enter every loop body at most `i` times each time the loop is
reached from outside. -/
def loopPaths (g : FlowGraph) (i : Nat) : Enumeration CountedTrail Path :=
  let nesting := g.nestedLoops
  { rule :=
      { result? := fun t => t.trail.complete?
        children := g.loopChildren nesting i }
    waiting := [(g.loopDepth i, ⟨.start, []⟩)] }

/-- The walk to the same paths that keeps one path, and a count of the loops for each frame. It goes on as
far as the counts allow. -/
def loopWalk (g : FlowGraph) (i : Nat) : Backtracker (Node × LoopCounts) Node Path :=
  let nesting := g.nestedLoops
  { visit := fun _ path (n, counts) => .arrive path n (g.loopWays nesting i n counts)
    stack := [(0, .entry, [])]
    path := [] }

/-- Add `c` to the count of `n`. -/
def tally (n : Node) (c : Nat) : List (Node × Nat) → List (Node × Nat)
  | [] => [(n, c)]
  | (m, d) :: rest => if m = n then (m, d + c) :: rest else (m, d) :: tally n c rest

/-- One step of counting: the ways to reach each node one step after the frontier. -/
def advance (g : FlowGraph) (frontier : List (Node × Nat)) : List (Node × Nat) :=
  frontier.foldl (fun acc w => (g.successors w.1).foldl (fun acc m => tally m w.2 acc) acc) []

/-- Paths to the exit of at most `k` further edges, `frontier` counting the ways to reach the nodes
from which they go on. -/
def countFrom (g : FlowGraph) : Nat → List (Node × Nat) → Nat → Nat
  | 0, _, sum => sum
  | k + 1, frontier, sum =>
    let reached := g.advance frontier
    let sum := sum + (reached.lookup .exit).getD 0
    let frontier := reached.filter (·.1 ≠ .exit)
    if frontier.isEmpty then sum else countFrom g k frontier sum

/-- The number of paths from entry to exit of at most `k` edges, found without listing them. -/
def countPaths (g : FlowGraph) (k : Nat) : Nat :=
  g.countFrom k [(.entry, 1)] 0

end FlowGraph

end Pathwise
