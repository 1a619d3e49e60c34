import Pathwise.Constraint.Propagation

/-!
Solving constraint problems by propagation and search.

Without free symbols a problem is decided by evaluation. Otherwise propagation may refute it; a search
space that is small enough after propagation is tried in full, which decides the problem; and a larger
one is searched among likely values, where a failure decides nothing.

A solver polls its budget when it starts and then before every so many candidates. It gives up at the
first poll that says so.
-/

namespace Pathwise

/-- Why a problem was left undecided. -/
inductive Doubt
  | cancelled
  | timeout
  | noneAmong (tried : Nat)
  | candidatesExhausted
  deriving DecidableEq, Repr

def Doubt.message : Doubt → String
  | .cancelled => "cancelled"
  | .timeout => "timeout"
  | .noneAmong n => s!"no solution among {n} candidates"
  | .candidatesExhausted => "heuristic candidates exhausted"

inductive Answer
  | sat (m : Model)
  | unsat
  | unknown (d : Doubt)
  deriving DecidableEq

namespace Answer

def isSat : Answer → Bool
  | sat _ => true
  | _ => false

def isUnsat : Answer → Bool
  | unsat => true
  | _ => false

def render : Answer → String
  | sat _ => "sat"
  | unsat => "unsat"
  | unknown d => "unknown (" ++ d.message ++ ")"

end Answer

/-- What a solver reads of a flag that others may raise or lower while it works: `s n` at its `n`-th
poll. -/
def Signal := Nat → Bool

instance : Coe Bool Signal := ⟨fun b _ => b⟩

/-- What the polls of a solve are answered. The first poll stands at the start of the solve. -/
structure Budget where
  cancelled : Signal := false
  timedOut : Signal := false

namespace Budget

/-- Why the solver has to give up at its `n`-th poll. -/
def exhausted? (b : Budget) (n : Nat) : Option Doubt :=
  if b.cancelled n then some .cancelled
  else if b.timedOut n then some .timeout
  else none

/-- How many candidates are tried from one poll of a search to the next. -/
def pollInterval : Nat := 256

/-- What the poll of a search before its next candidate says, if one is due. -/
def poll? (b : Budget) (tried : Nat) : Option Doubt :=
  if tried % pollInterval = 0 then b.exhausted? (tried / pollInterval + 1) else none

/-- Why a search has to stop before its next candidate: it has tried as many as it may, or a poll says
so. -/
def halt? (b : Budget) (limit tried : Nat) : Option Doubt :=
  if limit ≤ tried then some (.noneAmong tried) else b.poll? tried

end Budget

/-- How far a search may go, and what its polls are answered. -/
structure SearchLimits extends Budget where
  exhaustive : Nat := 65536
  candidates : Nat := 200000
  radius : Int64 := 16

/-- What a search came to; `exhausted` tells how many candidates were tried. -/
inductive SearchResult
  | found (m : Model)
  | exhausted (tried : Nat)
  | stopped (d : Doubt)
  deriving DecidableEq

/-- Try `f` on the values in turn while each attempt is exhausted, handing on how many were tried. -/
def firstSuccess {α : Type} (f : α → Nat → SearchResult) : List α → Nat → SearchResult
  | [], tried => .exhausted tried
  | x :: xs, tried =>
    match f x tried with
    | .exhausted tried => firstSuccess f xs tried
    | r => r

namespace Problem

/-- Try the candidate that the picked values make, unless there is a reason to stop. -/
def attempt (p : Problem) (halt? : Nat → Option Doubt) (picked : List (SymbolId × Value))
    (tried : Nat) : SearchResult :=
  match halt? tried with
  | some d => .stopped d
  | none =>
    match p.complete (.ofList picked) with
    | some m => .found m
    | none => .exhausted (tried + 1)

/-- Try every combination of values for the symbols, those of the last symbol changing fastest, each in
front of the values that are already picked. -/
def tryAll (p : Problem) (halt? : Nat → Option Doubt) :
    List (SymbolId × List Value) → List (SymbolId × Value) → Nat → SearchResult
  | [], picked, tried => p.attempt halt? picked tried
  | (s, vs) :: rest, picked, tried =>
    firstSuccess (fun v tried => p.tryAll halt? rest ((s, v) :: picked) tried) vs tried

/-- A number as a value of the kind of the symbol. -/
def valueOf (p : Problem) (s : SymbolId) (n : Int64) : Value :=
  match p.kindOf s with
  | .int => .int n
  | .bool => .bool (n != 0)

/-- Search the combinations of the choices, those of the first symbol changing fastest. Of a symbol that
is listed twice the later value counts. -/
def search (p : Problem) (b : Budget) (choices : List (SymbolId × List Int64)) (limit : Nat) :
    SearchResult :=
  p.tryAll (b.halt? limit) (choices.reverse.map fun (s, ns) => (s, ns.map (p.valueOf s))) [] 0

end Problem

namespace SearchLimits

/-- By distance from zero, the positive one of two opposite numbers first. -/
def simplicity : Int64 → Int64 → Ordering :=
  compareLex (compareOn fun n => n.toInt.natAbs) (compareOn fun n => if n < 0 then 1 else 0)

/-- Likely values in the domain `d`, the simplest first: small numbers, the ends of the domain, and
the constants of the problem, their neighbours and their opposites. -/
def likely (l : SearchLimits) (constants : List Int64) (d : Interval) : List Int64 :=
  let r := max l.radius 0
  let small := (Interval.intersect ⟨-r, r⟩ d).toList
  let exact := [d.lo.toInt, d.hi.toInt, d.lo.toInt + 1, d.hi.toInt - 1] ++
    constants.flatMap fun c => [c.toInt, c.toInt - 1, c.toInt + 1, -c.toInt]
  ascendingBy simplicity (small ++ (exact.filterMap fit?).filter d.contains)

end SearchLimits

namespace Problem

/-- The greatest number that the size of a search space can have: it is counted in 128 bits. -/
def maxSpace : Nat := Nat.pow 2 128 - 1

/-- The number of combinations of values in the domains, cut off at the greatest. -/
def spaceSize (ds : List Interval) : Nat :=
  ds.foldl (fun n d => min (n * d.size) maxSpace) 1

/-- Decide the problem, as far as the limits allow. Where all of the space is tried, only a poll can stop
the search: the limit is the greatest number that a count of candidates can have. -/
def solve (l : SearchLimits) (p : Problem) : Answer :=
  match l.exhausted? 0 with
  | some d => .unknown d
  | none =>
    if p.free.isEmpty then
      match p.complete .empty with
      | some m => .sat m
      | none => .unsat
    else
      match p.propagate with
      | none => .unsat
      | some ds =>
        let domains := p.free.map fun s => (s, ds.of (.sym s))
        if spaceSize (domains.map (·.2)) ≤ l.exhaustive then
          match p.search l.toBudget (domains.map fun (s, d) => (s, d.toList)) (UInt64.size - 1) with
          | .found m => .sat m
          | .exhausted _ => .unsat
          | .stopped d => .unknown d
        else
          match p.search l.toBudget (domains.map fun (s, d) => (s, l.likely p.constants d))
            l.candidates with
          | .found m => .sat m
          | .exhausted _ => .unknown .candidatesExhausted
          | .stopped d => .unknown d

end Problem

end Pathwise
