/-!
Depth-first enumeration of the results at the leaves of a tree, one at a time.

The tree is given by a rule: a state either is finished, with a result, or has children. Below a state
the tree is followed to a bounded depth. The states still to be visited wait in a list, the next one
first, so an enumeration can be stopped, kept and taken up again like any other value.
-/

namespace Pathwise

variable {σ ρ : Type}

/-- When a state is finished, and what comes after one that is not. -/
structure Growth (σ ρ : Type) where
  result? : σ → Option ρ
  children : σ → List σ

namespace Growth

/-- The number of states at or below `s` down to depth `d`. -/
def size (r : Growth σ ρ) : Nat → σ → Nat
  | 0, _ => 1
  | d + 1, s => (r.children s).foldr (fun c n => r.size d c + n) 0 + 1

/-- The number of states at or below the waiting ones. -/
def total (r : Growth σ ρ) (waiting : List (Nat × σ)) : Nat :=
  waiting.foldr (fun w n => r.size w.1 w.2 + n) 0

theorem total_cons (r : Growth σ ρ) (w : Nat × σ) (ws : List (Nat × σ)) :
    r.total (w :: ws) = r.size w.1 w.2 + r.total ws := rfl

theorem total_append (r : Growth σ ρ) (us ws : List (Nat × σ)) :
    r.total (us ++ ws) = r.total us + r.total ws := by
  induction us with
  | nil => simp [total]
  | cons u us ih => rw [List.cons_append, total_cons, total_cons, ih, Nat.add_assoc]

theorem total_map (r : Growth σ ρ) (d : Nat) (cs : List σ) :
    r.total (cs.map (d, ·)) = cs.foldr (fun c n => r.size d c + n) 0 := by
  induction cs with
  | nil => rfl
  | cons c cs ih => rw [List.map_cons, total_cons, ih, List.foldr_cons]

theorem size_pos (r : Growth σ ρ) (d : Nat) (s : σ) : 0 < r.size d s := by
  cases d <;> simp [size]

theorem total_lt_cons (r : Growth σ ρ) (w : Nat × σ) (ws : List (Nat × σ)) :
    r.total ws < r.total (w :: ws) := by
  rw [total_cons]
  exact Nat.lt_add_of_pos_left (r.size_pos w.1 w.2)

/-- The waiting states after the children of `s` have taken its place. -/
def expand (r : Growth σ ρ) (d : Nat) (s : σ) (rest : List (Nat × σ)) : List (Nat × σ) :=
  (r.children s).map (d, ·) ++ rest

theorem total_expand_lt (r : Growth σ ρ) (d : Nat) (s : σ) (ws : List (Nat × σ)) :
    r.total (r.expand d s ws) < r.total ((d + 1, s) :: ws) := by
  rw [expand, total_append, total_cons, total_map]
  show _ < r.size (d + 1) s + _
  rw [size]
  omega

/-- The first result at or below the waiting states, and the states that wait behind it. -/
def next? (r : Growth σ ρ) : List (Nat × σ) → Option (ρ × List (Nat × σ))
  | [] => none
  | (d, s) :: rest =>
    match r.result? s with
    | some x => some (x, rest)
    | none =>
      match d with
      | 0 => r.next? rest
      | d + 1 => r.next? (r.expand d s rest)
termination_by waiting => r.total waiting
decreasing_by
  · exact r.total_lt_cons _ _
  · exact r.total_expand_lt _ _ _

/-- All results at or below `s` down to depth `d`, in order. -/
def results (r : Growth σ ρ) : Nat → σ → List ρ
  | d, s =>
    match r.result? s with
    | some x => [x]
    | none =>
      match d with
      | 0 => []
      | d + 1 => (r.children s).flatMap (r.results d)

/-- The results at or below `s` in front of `later`, built from the last one on so that none is copied
on the way up. -/
def resultsOnto (r : Growth σ ρ) : Nat → σ → List ρ → List ρ
  | d, s, later =>
    match r.result? s with
    | some x => x :: later
    | none =>
      match d with
      | 0 => later
      | d + 1 => (r.children s).foldr (r.resultsOnto d) later

theorem foldr_eq_flatMap_append {f : σ → List ρ → List ρ} {g : σ → List ρ}
    (h : ∀ s later, f s later = g s ++ later) (cs : List σ) (later : List ρ) :
    cs.foldr f later = cs.flatMap g ++ later := by
  induction cs with
  | nil => rfl
  | cons c cs ih => rw [List.foldr_cons, ih, h, List.flatMap_cons, List.append_assoc]

theorem resultsOnto_eq (r : Growth σ ρ) (d : Nat) (s : σ) (later : List ρ) :
    r.resultsOnto d s later = r.results d s ++ later := by
  induction d generalizing s later with
  | zero => unfold resultsOnto results; cases r.result? s <;> rfl
  | succ d ih =>
    unfold resultsOnto results
    cases r.result? s with
    | some x => rfl
    | none => exact foldr_eq_flatMap_append (fun s later => ih s later) _ _

end Growth

/-- A rule with the states still to be visited, each with the depth allowed below it. -/
structure Enumeration (σ ρ : Type) where
  rule : Growth σ ρ
  waiting : List (Nat × σ)

namespace Enumeration

/-- The next result and the enumeration of those behind it. -/
def next? (e : Enumeration σ ρ) : Option (ρ × Enumeration σ ρ) :=
  (e.rule.next? e.waiting).map fun (x, waiting) => (x, { e with waiting })

/-- All results, in order. -/
def toList (e : Enumeration σ ρ) : List ρ :=
  e.waiting.foldr (fun w later => e.rule.resultsOnto w.1 w.2 later) []

theorem toList_eq_flatMap (e : Enumeration σ ρ) :
    e.toList = e.waiting.flatMap fun w => e.rule.results w.1 w.2 := by
  have h := Growth.foldr_eq_flatMap_append
    (fun (w : Nat × σ) later => e.rule.resultsOnto_eq w.1 w.2 later) e.waiting []
  rw [List.append_nil] at h
  exact h

/-- The first `n` results, and the enumeration of those behind them. -/
def splitAt : Nat → Enumeration σ ρ → List ρ × Enumeration σ ρ
  | 0, e => ([], e)
  | n + 1, e =>
    match e.next? with
    | none => ([], { e with waiting := [] })
    | some (x, e') =>
      let (xs, rest) := splitAt n e'
      (x :: xs, rest)

def take (n : Nat) (e : Enumeration σ ρ) : List ρ :=
  (e.splitAt n).1

end Enumeration

end Pathwise
