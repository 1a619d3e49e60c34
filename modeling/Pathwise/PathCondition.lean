import Pathwise.FlowGraph.Basic
import Pathwise.Constraint.Problem

/-!
The condition under which a path is taken, as a constraint problem.

Every value that occurs on the path has a symbol of its own: a variable that is read before it is
written stands for its initial value, an input for the value read, and each assignment makes a new
version of its variable. Guards become assertions, and so does what division and powers require of
their second operand.
-/

namespace Pathwise

/-- Why a path has no condition. -/
inductive PathError
  | notFromEntry
  | notToExit
  | noEdge (a : Arc)
  | mixedKinds (x : String)
  deriving DecidableEq, Repr

def PathError.message : PathError → String
  | .notFromEntry => "invalid path: path does not start at START"
  | .notToExit => "invalid path: path does not end at END"
  | .noEdge a => "invalid path: no edge from " ++ a.source.render ++ " to " ++ a.target.render
  | .mixedKinds x => s!"variable '{x}' is used both as an integer and as a boolean"

/-- What is known of a variable: its kind, the symbol of its present value, and how many symbols it has
had. -/
structure Slot where
  kind : Kind
  symbol : SymbolId
  versions : Nat
  deriving DecidableEq, Repr

/-- The condition of a path, the variables whose initial values it speaks of, and the inputs it reads,
both in the order in which the path meets them. `slots` lists the latest of each variable first. -/
structure PathCondition where
  problem : Problem := {}
  slots : List (String × Slot) := []
  initial : List (String × SymbolId) := []
  inputs : List (String × SymbolId) := []

namespace PathCondition

/-- The slot of `x`, if it has been met; it must be of the given kind. -/
def slot? (c : PathCondition) (x : String) (k : Kind) : Except PathError (Option Slot) :=
  match c.slots.lookup x with
  | some s => if s.kind = k then .ok (some s) else .error (.mixedKinds x)
  | none => .ok none

/-- The symbol of the present value of `x`. -/
def read (c : PathCondition) (x : String) (k : Kind) :
    Except PathError (SymbolId × PathCondition) := do
  match ← c.slot? x k with
  | some s => return (s.symbol, c)
  | none =>
    let (s, p) := c.problem.fresh x k (.initial x)
    return (s, { c with
      problem := p
      slots := (x, ⟨k, s, 1⟩) :: c.slots
      initial := c.initial ++ [(x, s)] })

def assert (c : PathCondition) (f : Formula) : PathCondition :=
  { c with problem := c.problem.add (.assert f) }

/-- A symbol for an intermediate result. -/
def result (c : PathCondition) (d : Definition) : SymbolId × PathCondition :=
  let (s, p) := c.problem.fresh s!"_t{c.problem.symbols.length}" .int .aux
  (s, { c with problem := p.add (.define s d) })

/-- What an operator requires of its second operand. -/
def requirement? (op : ArithOp) (b : Term) : Option Formula :=
  match op with
  | .div | .mod => some (.cmp .ne b (.const 0))
  | .pow => some (.cmp .ge b (.const 0))
  | .add | .sub | .mul => none

def arith (c : PathCondition) : Arith → Except PathError (Term × PathCondition)
  | .const n => .ok (.const n, c)
  | .var x => do
    let (s, c) ← c.read x .int
    return (.sym s, c)
  | .unary op a => do
    let (a, c) ← c.arith a
    let (s, c) := c.result (.unary op a)
    return (.sym s, c)
  | .binary op a b => do
    let (a, c) ← c.arith a
    let (b, c) ← c.arith b
    let c := match requirement? op b with
      | some f => c.assert f
      | none => c
    let (s, c) := c.result (.binary op a b)
    return (.sym s, c)

def cond (c : PathCondition) : Cond → Except PathError (Formula × PathCondition)
  | .const b => .ok (.const b, c)
  | .var x => do
    let (s, c) ← c.read x .bool
    return (.sym s, c)
  | .not a => do
    let (f, c) ← c.cond a
    return (f.negate, c)
  | .logic op a b => do
    let (f, c) ← c.cond a
    let (g, c) ← c.cond b
    return (.connect op f g, c)
  | .cmp op a b => do
    let (a, c) ← c.arith a
    let (b, c) ← c.arith b
    return (.cmp op a b, c)

/-- Make the symbol `s` the present value of `x`. -/
def write (c : PathCondition) (x : String) (versions : Nat) (s : SymbolId) : PathCondition :=
  { c with slots := (x, ⟨.int, s, versions⟩) :: c.slots }

/-- How many symbols `x` has had, if it is an integer as far as is known. -/
def versions (c : PathCondition) (x : String) : Except PathError Nat := do
  return match ← c.slot? x .int with
    | some s => s.versions
    | none => 0

def action (c : PathCondition) : Action → Except PathError PathCondition
  | .skip => .ok c
  | .assign x e => do
    let (t, c) ← c.arith e
    let n := (← c.versions x) + 1
    let (s, p) := c.problem.fresh s!"{x}#{n}" .int (.version x n)
    return { c with problem := p.add (.define s (.copy t)) }.write x n s
  | .input x => do
    let n := (← c.versions x) + 1
    let index := c.inputs.length
    let (s, p) := c.problem.fresh s!"{x}?{index}" .int (.input x index)
    return { c with problem := p, inputs := c.inputs ++ [(x, s)] }.write x n s
  | .print e => do
    let (_, c) ← c.arith e
    return c

def edge (c : PathCondition) (e : Edge) : Except PathError PathCondition := do
  if e.guard.isTrue then c.action e.action
  else
    let (f, c) ← c.cond e.guard
    (c.assert f).action e.action

/-- The guards of edges in order. -/
def guards (c : PathCondition) : List Edge → Except PathError (List Formula × PathCondition)
  | [] => .ok ([], c)
  | e :: rest => do
    let (f, c) ← c.cond e.guard
    let (fs, c) ← c.guards rest
    return (f :: fs, c)

/-- One step of the path. Edges side by side that do nothing are one edge that any of their guards
opens. -/
def step (g : FlowGraph) (c : PathCondition) (a : Arc) : Except PathError PathCondition :=
  match g.edgesBetween a.source a.target with
  | [] => .error (.noEdge a)
  | [e] => c.edge e
  | e :: rest =>
    if (e :: rest).all (·.action.isSkip) then do
      let (fs, c) ← c.guards (e :: rest)
      return c.assert (.disj fs)
    else c.edge e

end PathCondition

/-- The condition under which the graph is run along `p`. -/
def FlowGraph.pathCondition (g : FlowGraph) (p : Path) : Except PathError PathCondition :=
  if p.head? ≠ some .entry then .error .notFromEntry
  else if p.getLast? ≠ some .exit then .error .notToExit
  else p.arcs.foldlM (PathCondition.step g) {}

end Pathwise
