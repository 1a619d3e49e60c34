import Pathwise.Operator
import Pathwise.Constraint.Model

/-!
Terms and formulas over symbols, and the constructors that keep formulas small.

A conjunction or disjunction is evaluated from left to right up to the part that decides it, so a part
without a value matters only if it is reached.
-/

namespace Pathwise

/-- An integer operand. -/
inductive Term
  | const (n : Int64)
  | sym (s : SymbolId)
  deriving DecidableEq, Repr

namespace Term

def eval (m : Model) : Term → Option Int64
  | const n => some n
  | sym s => m.int? s

def constant? : Term → Option Int64
  | const n => some n
  | sym _ => none

def render : Term → String
  | const n => toString n.toInt
  | sym s => s!"s{s}"

end Term

inductive Formula
  | const (b : Bool)
  | sym (s : SymbolId)
  | not (f : Formula)
  | all (fs : List Formula)
  | any (fs : List Formula)
  | xor (f g : Formula)
  | cmp (op : CmpOp) (a b : Term)

namespace Formula

/-- The negation, moved into constants and comparisons and cancelled against a negation. -/
def negate : Formula → Formula
  | const b => const !b
  | cmp op a b => cmp op.negate a b
  | not f => f
  | f => not f

/-- The parts that a formula brings to a conjunction. -/
def conjunctionParts : Formula → List Formula
  | all fs => fs
  | const true => []
  | f => [f]

/-- The parts that a formula brings to a disjunction. -/
def disjunctionParts : Formula → List Formula
  | any fs => fs
  | const false => []
  | f => [f]

/-- The conjunction of the formulas, with conjunctions among them opened and `true` left out. -/
def conj (fs : List Formula) : Formula :=
  match fs.flatMap conjunctionParts with
  | [] => const true
  | [f] => f
  | parts => all parts

/-- The disjunction of the formulas, with disjunctions among them opened and `false` left out. -/
def disj (fs : List Formula) : Formula :=
  match fs.flatMap disjunctionParts with
  | [] => const false
  | [f] => f
  | parts => any parts

def connect : LogicOp → Formula → Formula → Formula
  | .and, f, g => conj [f, g]
  | .or, f, g => disj [f, g]
  | .xor, f, g => xor f g

/-- The formulas that must all hold for this one to hold. -/
def conjuncts : Formula → List Formula
  | all fs => fs
  | f => [f]

mutual

def eval (m : Model) : Formula → Option Bool
  | const b => some b
  | sym s => m.bool? s
  | not f =>
    match f.eval m with
    | some b => some !b
    | none => none
  | all fs => evalAll m fs
  | any fs => evalAny m fs
  | xor f g =>
    match f.eval m, g.eval m with
    | some a, some b => some (a != b)
    | _, _ => none
  | cmp op a b =>
    match a.eval m, b.eval m with
    | some x, some y => some (op.holds x y)
    | _, _ => none

/-- Up to the first part that is not true. -/
def evalAll (m : Model) : List Formula → Option Bool
  | [] => some true
  | f :: fs =>
    match f.eval m with
    | some true => evalAll m fs
    | r => r

/-- Up to the first part that is not false. -/
def evalAny (m : Model) : List Formula → Option Bool
  | [] => some false
  | f :: fs =>
    match f.eval m with
    | some false => evalAny m fs
    | r => r

end

mutual

/-- The integer constants in the comparisons of a formula. -/
def constants : Formula → List Int64
  | const _ => []
  | sym _ => []
  | not f => f.constants
  | all fs => listConstants fs
  | any fs => listConstants fs
  | xor f g => f.constants ++ g.constants
  | cmp _ a b => [a, b].filterMap Term.constant?

def listConstants : List Formula → List Int64
  | [] => []
  | f :: fs => f.constants ++ listConstants fs

end

mutual

def render : Formula → String
  | const b => if b then "true" else "false"
  | sym s => s!"s{s}"
  | not f => "(not " ++ f.render ++ ")"
  | all fs => "(and" ++ renderList fs ++ ")"
  | any fs => "(or" ++ renderList fs ++ ")"
  | xor f g => "(xor " ++ f.render ++ " " ++ g.render ++ ")"
  | cmp op a b => "(" ++ op.symbol ++ " " ++ a.render ++ " " ++ b.render ++ ")"

/-- Each formula behind a blank. -/
def renderList : List Formula → String
  | [] => ""
  | f :: fs => " " ++ f.render ++ renderList fs

end

end Formula

end Pathwise
