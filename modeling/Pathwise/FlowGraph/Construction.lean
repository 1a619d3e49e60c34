import Pathwise.FlowGraph.Basic

/-!
The flow graph of a program.

A statement is laid out behind the open edges that lead to it and leaves open edges of its own, so a
sequence is laid out by handing the open edges on. A loop closes those of its body on its own header.
-/

namespace Pathwise

/-- An edge whose target is not yet known. -/
structure OpenEdge where
  source : Node
  guard : Cond
  action : Action
  way : Way
  deriving DecidableEq, Repr

def OpenEdge.to (e : OpenEdge) (target : Node) : Edge :=
  ⟨e.source, target, e.guard, e.action, e.way⟩

/-- What a statement adds to a graph: nodes, edges, and the open edges behind it. -/
structure Layout where
  nodes : List Node
  edges : List Edge
  exits : List OpenEdge
  deriving DecidableEq, Repr

namespace Program

/-- One node reached by the open edges, left unconditionally with the given action. -/
def place (entries : List OpenEdge) (l : Label) (a : Action) : Layout where
  nodes := [.point l]
  edges := entries.map (·.to (.point l))
  exits := [⟨.point l, .const true, a, .next⟩]

/-- Lay a program out behind the open edges `entries`. -/
def layout (entries : List OpenEdge) : Program → Layout
  | skip => ⟨[], [], entries⟩
  | assign l x e => place entries l (.assign x e)
  | input l x => place entries l (.input x)
  | print l e => place entries l (.print e)
  | seq a b =>
    let first := a.layout entries
    let second := b.layout first.exits
    ⟨first.nodes ++ second.nodes, first.edges ++ second.edges, second.exits⟩
  | branch l c a b =>
    let node := Node.point l
    let first := a.layout [⟨node, c, .skip, .thenArm⟩]
    let second := b.layout [⟨node, c.negate, .skip, .elseArm⟩]
    ⟨node :: (first.nodes ++ second.nodes),
      entries.map (·.to node) ++ first.edges ++ second.edges,
      first.exits ++ second.exits⟩
  | loop l c body =>
    let node := Node.point l
    let inner := body.layout [⟨node, c, .skip, .body⟩]
    ⟨node :: inner.nodes,
      entries.map (·.to node) ++ inner.edges ++ inner.exits.map (·.to node),
      [⟨node, c.negate, .skip, .leave⟩]⟩

/-- The first label that has occurred before, `seen` having gone ahead. -/
def firstRepeat? (seen : List Label) : List Label → Option Label
  | [] => none
  | l :: rest => if l ∈ seen then some l else firstRepeat? (l :: seen) rest

end Program

/-- Two statements of a program carry this label. -/
structure DuplicateLabel where
  label : Label
  deriving DecidableEq, Repr

def DuplicateLabel.message (e : DuplicateLabel) : String :=
  s!"label {e.label} is used by more than one statement"

namespace FlowGraph

/-- The graph of a program, its nodes named by the labels whether or not these are distinct. -/
def layOut (p : Program) : FlowGraph :=
  let inner := p.layout [⟨.entry, .const true, .skip, .next⟩]
  ⟨.entry :: (inner.nodes ++ [.exit]), inner.edges ++ inner.exits.map (·.to .exit)⟩

/-- The flow graph of a program whose labels are distinct. -/
def ofProgram (p : Program) : Except DuplicateLabel FlowGraph :=
  match Program.firstRepeat? [] p.labels with
  | some l => .error ⟨l⟩
  | none => .ok (layOut p)

end FlowGraph

end Pathwise
