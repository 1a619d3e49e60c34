import Pathwise.Constraint.Problem
import Pathwise.Interval

/-!
Narrowing the values that the symbols of a problem can take.

Every symbol has a domain, an interval that holds its value in every solution; truth values count as 0
and 1. Each constraint in turn cuts the domains of its symbols down, and the problem has no solution
once a domain becomes empty.
-/

namespace Pathwise

/-- A domain for each symbol. -/
abbrev Domains := Array Interval

namespace Domains

def of (ds : Domains) : Term → Interval
  | .const n => .point n
  | .sym s => ds[s]?.getD .full

/-- Keep the value of `t` within `i`, or find that it cannot be. -/
def restrict (ds : Domains) (t : Term) (i : Interval) : Option Domains :=
  match t with
  | .const n => if i.contains n then some ds else none
  | .sym s =>
    let r := (ds.of t).intersect i
    if r.isEmpty then none else some (ds.setIfInBounds s r)

/-- Keep `t` from being `n`, where `n` is an end of its domain. -/
def exclude (ds : Domains) (t : Term) (n : Int64) : Option Domains :=
  let d := ds.of t
  if d.point? = some n then none
  else if d.lo = n then ds.restrict t (.ofBounds (n.toInt + 1) d.hi.toInt)
  else if d.hi = n then ds.restrict t (.ofBounds d.lo.toInt (n.toInt - 1))
  else some ds

/-- Keep `t` from being the only value that `other` can have. -/
def excludePoint (ds : Domains) (t other : Term) : Option Domains :=
  match (ds.of other).point? with
  | some n => ds.exclude t n
  | none => some ds

def atMost (ds : Domains) (a b : Term) : Option Domains := do
  let da := ds.of a
  let db := ds.of b
  let ds ← ds.restrict a ⟨Int64.minValue, db.hi⟩
  ds.restrict b ⟨da.lo, Int64.maxValue⟩

def below (ds : Domains) (a b : Term) : Option Domains := do
  let da := ds.of a
  let db := ds.of b
  let ds ← ds.restrict a (.ofBounds Int64.minValue.toInt (db.hi.toInt - 1))
  ds.restrict b (.ofBounds (da.lo.toInt + 1) Int64.maxValue.toInt)

def equate (ds : Domains) (a b : Term) : Option Domains := do
  let both := (ds.of a).intersect (ds.of b)
  let ds ← ds.restrict a both
  ds.restrict b both

/-- What a comparison that holds says about its operands. -/
def compare (ds : Domains) : CmpOp → Term → Term → Option Domains
  | .eq, a, b => ds.equate a b
  | .ne, a, b => do
    let ds ← ds.excludePoint a b
    ds.excludePoint b a
  | .lt, a, b => ds.below a b
  | .le, a, b => ds.atMost a b
  | .gt, a, b => ds.below b a
  | .ge, a, b => ds.atMost b a

/-- The values that a definition can take. -/
def value (ds : Domains) : Definition → Interval
  | .copy t => ds.of t
  | .unary op t => op.onIntervals (ds.of t)
  | .binary op a b => op.onIntervals (ds.of a) (ds.of b)

/-- What a result within `d` says about the operands of a definition. -/
def operands (ds : Domains) (d : Interval) : Definition → Option Domains
  | .copy t | .unary .plus t => ds.restrict t d
  | .unary .neg t => ds.restrict t d.neg
  | .unary .abs t =>
    let bound := d.intersect .nonNegative
    if bound.isEmpty then none else ds.restrict t (.ofBounds (-bound.hi.toInt) bound.hi.toInt)
  | .binary .add a b => do
    let ds ← ds.restrict a (d.sub (ds.of b))
    ds.restrict b (d.sub (ds.of a))
  | .binary .sub a b => do
    let ds ← ds.restrict a (d.add (ds.of b))
    ds.restrict b ((ds.of a).sub d)
  | .binary .pow _ b => ds.restrict b .nonNegative
  | .binary .mul _ _ | .binary .div _ _ | .binary .mod _ _ => some ds

def define (ds : Domains) (s : SymbolId) (d : Definition) : Option Domains := do
  let ds ← ds.restrict (.sym s) (ds.value d)
  ds.operands (ds.of (.sym s)) d

/-- What one conjunct that holds says about its symbols. -/
def assertPart (ds : Domains) : Formula → Option Domains
  | .const b => if b then some ds else none
  | .sym s => ds.restrict (.sym s) (.point 1)
  | .not (.sym s) => ds.restrict (.sym s) (.point 0)
  | .cmp op a b => ds.compare op a b
  | _ => some ds

def enforce (ds : Domains) : Constraint → Option Domains
  | .define s d => ds.define s d
  | .assert f => f.conjuncts.foldlM assertPart ds

/-- Go through the constraints again and again, until nothing changes or the rounds are used up. -/
def narrow (cs : List Constraint) : Nat → Domains → Option Domains
  | 0, ds => some ds
  | rounds + 1, ds => do
    let ds' ← cs.foldlM enforce ds
    if ds' = ds then return ds' else narrow cs rounds ds'

end Domains

namespace Problem

def initialDomains (p : Problem) : Domains :=
  (p.symbols.map fun s => match s.kind with
    | .int => Interval.full
    | .bool => Interval.truth).toArray

/-- Domains that hold the symbols' values in every solution, or `none` if there is no solution. -/
def propagate (p : Problem) : Option Domains :=
  Domains.narrow p.constraints 64 p.initialDomains

end Problem

end Pathwise
