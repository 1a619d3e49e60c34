import Pathwise.FlowGraph.Facts

/-!
Coverage criteria, and the uses of variables that a path exercises.
-/

namespace Pathwise

inductive Criterion
  | assignments
  | decisions
  | boundedPaths (k : Nat)
  | loopPaths (i : Nat)
  | duPaths
  | definitions
  | uses
  | distance (k : Nat)
  deriving DecidableEq, Repr

def Criterion.render : Criterion → String
  | assignments => "all-assign"
  | decisions => "all-decisions"
  | boundedPaths k => s!"all-{k}-paths"
  | loopPaths i => s!"all-{i}-loops"
  | duPaths => "all-du-paths"
  | definitions => "all-defs"
  | uses => "all-uses"
  | distance k => s!"distance-{k}"

namespace Accesses

/-- The variables that `n` writes. -/
def defsOf (t : Accesses) (n : Node) : List String :=
  match t.find? (·.node = n) with
  | some a => a.defs
  | none => []

/-- The use at which the value that `x` has after its definition at `d` is read first along the given
nodes, unless `x` is written before. -/
def firstUse? (t : Accesses) (x : String) (d : Node) : List Node → Option DefUse
  | [] => none
  | n :: rest =>
    if t.uses n x then some ⟨x, d, n⟩
    else if t.defines n x then none
    else t.firstUse? x d rest

/-- For every definition along the path, the use that reads it first. -/
def usesAlong (t : Accesses) : Path → List DefUse
  | [] => []
  | d :: rest => (t.defsOf d).filterMap (t.firstUse? · d rest) ++ t.usesAlong rest

/-- The definitions and uses that a path exercises. -/
def exercised (t : Accesses) (p : Path) : List DefUse :=
  ascending (t.usesAlong p)

end Accesses

end Pathwise
