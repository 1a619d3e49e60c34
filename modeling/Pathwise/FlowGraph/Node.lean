import Pathwise.Program

/-!
Nodes of a flow graph, and the paths and arcs made of them, with the order in which sets of them are
listed. Paths are ordered as words, so that a path comes before its continuations.
-/

namespace Pathwise

inductive Node
  | entry
  | point (l : Label)
  | exit
  deriving DecidableEq, Repr, Inhabited

namespace Node

def render : Node → String
  | entry => "START"
  | point l => toString l
  | exit => "END"

def label? : Node → Option Label
  | point l => some l
  | entry | exit => none

/-- The entry, then the labelled nodes by number, then the exit. -/
def order : Node → Node → Ordering
  | entry, entry => .eq
  | entry, _ => .lt
  | point _, entry => .gt
  | point l, point l' => compare l l'
  | point _, exit => .lt
  | exit, exit => .eq
  | exit, _ => .gt

instance : Ord Node := ⟨order⟩

end Node

/-- A sequence of nodes; whether its steps follow edges is asked of a graph. -/
abbrev Path := List Node

def Path.render (p : Path) : String :=
  " -> ".intercalate (p.map Node.render)

/-- The nodes of a path in increasing order, as often as they occur. -/
def Path.sorted (p : Path) : List Node :=
  p.mergeSort fun a b => (compare a b).isLE

/-- Two nodes in a row. -/
structure Arc where
  source : Node
  target : Node
  deriving DecidableEq, Repr

namespace Arc

def render (a : Arc) : String :=
  a.source.render ++ " -> " ++ a.target.render

instance : Ord Arc := ⟨compareLex (compareOn source) (compareOn target)⟩

end Arc

/-- The arcs that a path goes through, in order. -/
def Path.arcs : Path → List Arc
  | a :: b :: rest => ⟨a, b⟩ :: Path.arcs (b :: rest)
  | _ => []

end Pathwise
