import Pathwise.Program
import Pathwise.Machine

/-!
Direct execution of programs.

A loop may run forever, so execution takes a bound on the iterations of each loop run and answers
`none` when a loop exceeds it. An answer that is found stays the same under every larger bound.
-/

namespace Pathwise

/-- How an execution ended, and the machine it left. -/
inductive Outcome
  | done (m : Machine)
  | failed (m : Machine) (fault : Fault)
  deriving DecidableEq

def Outcome.machine : Outcome → Machine
  | done m | failed m _ => m

def Outcome.fault? : Outcome → Option Fault
  | done _ => none
  | failed _ f => some f

namespace Program

/-- Perform one action. -/
def perform (a : Action) (m : Machine) : Outcome :=
  match a.perform m with
  | .ok m' => .done m'
  | .error f => .failed m f

/-- Go on with `next` from the machine that is left, unless the execution failed or got lost. -/
def andThen (r : Option Outcome) (next : Machine → Option Outcome) : Option Outcome :=
  match r with
  | some (.done m) => next m
  | _ => r

/-- Repeat `body` while `c` holds, at most the given number of tests. -/
def repeatWhile (c : Cond) (body : Machine → Option Outcome) : Nat → Machine → Option Outcome
  | 0, _ => none
  | n + 1, m =>
    match c.eval m.env with
    | .error f => some (.failed m f)
    | .ok false => some (.done m)
    | .ok true => andThen (body m) (repeatWhile c body n)

/-- Execute a program in which no run of a loop makes more than `bound` tests. -/
def execute (bound : Nat) : Program → Machine → Option Outcome
  | skip, m => some (.done m)
  | assign _ x e, m => some (perform (.assign x e) m)
  | input _ x, m => some (perform (.input x) m)
  | print _ e, m => some (perform (.print e) m)
  | seq a b, m => andThen (a.execute bound m) (b.execute bound)
  | branch _ c a b, m =>
    match c.eval m.env with
    | .error f => some (.failed m f)
    | .ok true => a.execute bound m
    | .ok false => b.execute bound m
  | loop _ c body, m => repeatWhile c (body.execute bound) bound m

end Program

end Pathwise
