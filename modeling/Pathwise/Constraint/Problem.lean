import Pathwise.Constraint.Formula
import Pathwise.Ascending

/-!
Constraint problems: symbols, definitions that fix some of them in terms of others, and assertions.

A problem is decided for given values of its free symbols by going through the constraints in order:
a definition sets its target, an assertion must hold.
-/

namespace Pathwise

/-- What a symbol stands for: a variable before it is written, a value that is read as input, the value
of a variable after its `n`th change, or an intermediate result. -/
inductive Origin
  | initial (x : String)
  | input (x : String) (index : Nat)
  | version (x : String) (n : Nat)
  | aux
  deriving DecidableEq, Repr

structure Symbol where
  name : String
  kind : Kind
  origin : Origin
  deriving DecidableEq, Repr

/-- How the value of a symbol is computed. -/
inductive Definition
  | copy (t : Term)
  | unary (op : UnaryOp) (t : Term)
  | binary (op : ArithOp) (a b : Term)
  deriving DecidableEq, Repr

namespace Definition

def eval (m : Model) : Definition → Option Int64
  | copy t => t.eval m
  | unary op t =>
    match t.eval m with
    | some x => (op.apply x).toOption
    | none => none
  | binary op a b =>
    match a.eval m, b.eval m with
    | some x, some y => (op.apply x y).toOption
    | _, _ => none

def operands : Definition → List Term
  | copy t | unary _ t => [t]
  | binary _ a b => [a, b]

def render : Definition → String
  | copy t => t.render
  | unary op t => "(" ++ op.symbol ++ " " ++ t.render ++ ")"
  | binary op a b => "(" ++ op.symbol ++ " " ++ a.render ++ " " ++ b.render ++ ")"

end Definition

inductive Constraint
  | define (target : SymbolId) (d : Definition)
  | assert (f : Formula)

namespace Constraint

def target? : Constraint → Option SymbolId
  | define s _ => some s
  | assert _ => none

def constants : Constraint → List Int64
  | define _ d => d.operands.filterMap Term.constant?
  | assert f => f.constants

def render : Constraint → String
  | define s d => s!"(define s{s} " ++ d.render ++ ")"
  | assert f => "(assert " ++ f.render ++ ")"

/-- Let one constraint act on a model: set the target of a definition, check an assertion. -/
def enforce (m : Model) : Constraint → Option Model
  | define s d =>
    match d.eval m with
    | some n => some (m.set s (.int n))
    | none => none
  | assert f => if f.eval m = some true then some m else none

end Constraint

structure Problem where
  symbols : List Symbol := []
  constraints : List Constraint := []

namespace Problem

/-- A new symbol, and the problem that has it. The number of the symbol fits in 32 bits while there are
fewer than `2 ^ 32` symbols before it. -/
def fresh (p : Problem) (name : String) (kind : Kind) (origin : Origin) : SymbolId × Problem :=
  (p.symbols.length, { p with symbols := p.symbols ++ [⟨name, kind, origin⟩] })

def add (p : Problem) (c : Constraint) : Problem :=
  { p with constraints := p.constraints ++ [c] }

def kindOf (p : Problem) (s : SymbolId) : Kind :=
  match p.symbols[s]? with
  | some symbol => symbol.kind
  | none => .int

/-- The symbols that no definition sets. -/
def free (p : Problem) : List SymbolId :=
  let defined := p.constraints.filterMap (·.target?)
  (List.range p.symbols.length).filter fun s => !defined.contains s

/-- The integer constants of the problem, in increasing order. -/
def constants (p : Problem) : List Int64 :=
  ascending (p.constraints.flatMap (·.constants))

/-- Give every symbol without a value the default of its kind, the symbols being those from `s` on. -/
def fillFrom (m : Model) (s : SymbolId) : List Symbol → Model
  | [] => m
  | symbol :: rest =>
    fillFrom (if (m.get? s).isNone then m.set s symbol.kind.default else m) (s + 1) rest

/-- Give every symbol without a value the default of its kind. -/
def fill (p : Problem) (m : Model) : Model :=
  fillFrom m 0 p.symbols

/-- The model that extends the given values of the free symbols and meets every constraint. -/
def complete (p : Problem) (m : Model) : Option Model :=
  p.constraints.foldlM Constraint.enforce (p.fill m)

def render (p : Problem) : String :=
  let declare : Symbol × SymbolId → String := fun (symbol, s) =>
    let kind := match symbol.kind with
      | .int => "Int"
      | .bool => "Bool"
    s!"(declare s{s} {kind}) ; {symbol.name}\n"
  String.join (p.symbols.zipIdx.map declare ++ p.constraints.map fun c => c.render ++ "\n")

end Problem

end Pathwise
