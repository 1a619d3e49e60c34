import Pathwise.Operator
import Pathwise.Environment
import Pathwise.Ascending

/-!
Arithmetic expressions and conditions: evaluation, variables, printed form, and construction from
operator symbols.

Operands are evaluated from left to right and none is skipped, so a fault in the right operand of a
connective is never hidden by the value of the left one.
-/

namespace Pathwise

inductive Arith
  | const (n : Int64)
  | var (x : String)
  | unary (op : UnaryOp) (a : Arith)
  | binary (op : ArithOp) (a b : Arith)
  deriving DecidableEq, Repr

namespace Arith

def eval (env : Env) : Arith → Except Fault Int64
  | const n => .ok n
  | var x => env.getInt x
  | unary op a => do op.apply (← a.eval env)
  | binary op a b => do
    let x ← a.eval env
    let y ← b.eval env
    op.apply x y

/-- The variables of an expression at each place where they occur, from left to right. -/
def occurrences : Arith → List String
  | const _ => []
  | var x => [x]
  | unary _ a => a.occurrences
  | binary _ a b => a.occurrences ++ b.occurrences

def vars (a : Arith) : List String :=
  ascending a.occurrences

def render : Arith → String
  | const n => toString n.toInt
  | var x => x
  | unary op a => op.symbol ++ a.render
  | binary op a b => "(" ++ a.render ++ " " ++ op.symbol ++ " " ++ b.render ++ ")"

end Arith

inductive Cond
  | const (b : Bool)
  | var (x : String)
  | not (c : Cond)
  | logic (op : LogicOp) (a b : Cond)
  | cmp (op : CmpOp) (a b : Arith)
  deriving DecidableEq, Repr

namespace Cond

/-- The opposite condition. A negation is removed rather than negated again. -/
def negate : Cond → Cond
  | not c => c
  | c => not c

/-- Whether the condition is the constant `true`, the guard of an unconditional edge. -/
def isTrue : Cond → Bool
  | const b => b
  | _ => false

def eval (env : Env) : Cond → Except Fault Bool
  | const b => .ok b
  | var x => env.getBool x
  | not c => do return !(← c.eval env)
  | logic op a b => do
    let p ← a.eval env
    let q ← b.eval env
    return op.apply p q
  | cmp op a b => do
    let x ← a.eval env
    let y ← b.eval env
    return op.holds x y

/-- The variables of a condition at each place where they occur, from left to right. -/
def occurrences : Cond → List String
  | const _ => []
  | var x => [x]
  | not c => c.occurrences
  | logic _ a b => a.occurrences ++ b.occurrences
  | cmp _ a b => a.occurrences ++ b.occurrences

def vars (c : Cond) : List String :=
  ascending c.occurrences

def render : Cond → String
  | const b => if b then "true" else "false"
  | var x => x
  | not c => "!" ++ c.render
  | logic op a b => "(" ++ a.render ++ " " ++ op.symbol ++ " " ++ b.render ++ ")"
  | cmp op a b => "(" ++ a.render ++ " " ++ op.symbol ++ " " ++ b.render ++ ")"

end Cond

/-- What an operator expects of its operands. -/
inductive OperandKind
  | arithmetic
  | boolean
  deriving DecidableEq, Repr

/-- Why an operator symbol and operands make no expression. -/
inductive SymbolError
  | unknownArithmetic (symbol : String)
  | unknownBoolean (symbol : String)
  | wrongOperands (symbol : String) (expected : OperandKind)
  deriving DecidableEq, Repr

def SymbolError.message : SymbolError → String
  | .unknownArithmetic s => s!"unknown arithmetic operator '{s}'"
  | .unknownBoolean s => s!"unknown boolean operator '{s}'"
  | .wrongOperands s .arithmetic => s!"operator '{s}' expects arithmetic operands"
  | .wrongOperands s .boolean => s!"operator '{s}' expects boolean operands"

/-- An operand whose kind is not yet checked against its operator. -/
inductive Operand
  | arith (a : Arith)
  | cond (c : Cond)
  deriving DecidableEq, Repr

def UnaryOp.ofSymbol (s : String) : Except SymbolError UnaryOp :=
  match UnaryOp.ofSymbol? s with
  | some op => .ok op
  | none => .error (.unknownArithmetic s)

def ArithOp.ofSymbol (s : String) : Except SymbolError ArithOp :=
  match ArithOp.ofSymbol? s with
  | some op => .ok op
  | none => .error (.unknownArithmetic s)

/-- A condition from the symbol of a comparison or connective and two operands of the kind it takes. -/
def Cond.ofBinary (s : String) (lhs rhs : Operand) : Except SymbolError Cond :=
  match CmpOp.ofSymbol? s, LogicOp.ofSymbol? s with
  | some op, _ =>
    match lhs, rhs with
    | .arith a, .arith b => .ok (.cmp op a b)
    | _, _ => .error (.wrongOperands s .arithmetic)
  | none, some op =>
    match lhs, rhs with
    | .cond a, .cond b => .ok (.logic op a b)
    | _, _ => .error (.wrongOperands s .boolean)
  | none, none => .error (.unknownBoolean s)

/-- A condition from the symbol of a prefixed operator; `!` is the only one. -/
def Cond.ofUnary (s : String) (c : Cond) : Except SymbolError Cond :=
  if s = "!" then .ok c.negate else .error (.unknownBoolean s)

end Pathwise
