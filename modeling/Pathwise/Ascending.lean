import Std.Data.TreeSet.Basic

/-!
Finite sets written as lists: every member once, in increasing order. Sets of variables, nodes, arcs
and paths are kept in this form, so that equal sets are equal lists and print alike.
-/

namespace Pathwise

variable {α : Type}

/-- The members of `xs`, each once, in increasing order with respect to `cmp`. -/
def ascendingBy (cmp : α → α → Ordering) (xs : List α) : List α :=
  (Std.TreeSet.ofList xs cmp).toList

/-- The members of `xs`, each once, in increasing order. -/
def ascending [Ord α] (xs : List α) : List α :=
  ascendingBy compare xs

/-- The members of `xs` that are not in `ys`. -/
def without [Ord α] (xs ys : List α) : List α :=
  let excluded := Std.TreeSet.ofList ys compare
  xs.filter fun x => !excluded.contains x

/-- The members of `xs` with keys not met before, one for each key, in the order of the list. -/
def distinctFrom {κ : Type} [Ord κ] (key : α → κ) (met : Std.TreeSet κ compare) : List α → List α
  | [] => []
  | x :: xs =>
    if met.contains (key x) then distinctFrom key met xs
    else x :: distinctFrom key (met.insert (key x)) xs

/-- The first member of `xs` for each key, in the order of the list. -/
def distinctBy {κ : Type} [Ord κ] (key : α → κ) (xs : List α) : List α :=
  distinctFrom key ∅ xs

/-- The members of `xs`, each once, in the order of their first occurrence. -/
def distinct [Ord α] (xs : List α) : List α :=
  distinctBy id xs

/-- The lists in order of length, those of one length as they stood. The lengths are taken once. -/
def shortestFirst (xs : List (List α)) : List (List α) :=
  ((xs.map fun x => (x.length, x)).mergeSort fun a b => decide (a.1 ≤ b.1)).map (·.2)

theorem shortestFirst_eq_mergeSort (xs : List (List α)) :
    shortestFirst xs = xs.mergeSort fun a b => decide (a.length ≤ b.length) := by
  have h := List.map_mergeSort (r := fun a b => decide (a.length ≤ b.length))
    (s := fun a b => decide (a.1 ≤ b.1)) (f := fun x : List α => (x.length, x)) (l := xs)
    fun _ _ _ _ => rfl
  rw [shortestFirst, ← h, List.map_map]
  exact List.map_id _

/-- Whether the members of `ys` stand side by side somewhere in the list. -/
def occursIn [BEq α] (ys : List α) : List α → Bool
  | [] => ys.isEmpty
  | x :: xs => ys.isPrefixOf (x :: xs) || occursIn ys xs

end Pathwise
