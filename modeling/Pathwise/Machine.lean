import Pathwise.Expression

/-!
The state that a program works on, and the actions that change it.

A failing action leaves the machine as it was, so the state of a stopped execution is the one in which
the failing action was tried.
-/

namespace Pathwise

/-- An environment with the input values still to be read and the values printed so far. -/
structure Machine where
  env : Env
  inputs : List Int64 := []
  outputs : Array Int64 := #[]
  deriving DecidableEq, Inhabited

inductive Action
  | skip
  | assign (x : String) (e : Arith)
  | input (x : String)
  | print (e : Arith)
  deriving DecidableEq, Repr

namespace Action

def isSkip : Action → Bool
  | skip => true
  | _ => false

def isAssign : Action → Bool
  | assign _ _ => true
  | _ => false

/-- The variable that the action writes. -/
def defined? : Action → Option String
  | assign x _ | input x => some x
  | skip | print _ => none

/-- The variables that the action reads, at each place where they occur. -/
def occurrences : Action → List String
  | assign _ e | print e => e.occurrences
  | skip | input _ => []

def used (a : Action) : List String :=
  ascending a.occurrences

def render : Action → String
  | skip => "skip"
  | assign x e => x ++ " := " ++ e.render
  | input x => "input " ++ x
  | print e => "print " ++ e.render

def perform (m : Machine) : Action → Except Fault Machine
  | skip => .ok m
  | assign x e => do
    let n ← e.eval m.env
    return { m with env := m.env.insert x (.int n) }
  | input x =>
    match m.inputs with
    | [] => .error (.inputExhausted x)
    | n :: rest => .ok { m with env := m.env.insert x (.int n), inputs := rest }
  | print e => do
    let n ← e.eval m.env
    return { m with outputs := m.outputs.push n }

end Action

end Pathwise
