import Pathwise.Environment

/-!
Values of the symbols of a constraint problem. A symbol is its number in the order of creation. Numbers of
32 bits are enough for a problem of at most `2 ^ 32` symbols; here they have no bound.
-/

namespace Pathwise

abbrev SymbolId := Nat

/-- What values a symbol or a variable takes. -/
inductive Kind
  | int
  | bool
  deriving DecidableEq, Repr

def Kind.default : Kind → Value
  | int => .int 0
  | bool => .bool false

/-- The values of some of the symbols. -/
structure Model where
  values : Array (Option Value)
  deriving DecidableEq

namespace Model

def empty : Model := ⟨#[]⟩

def get? (m : Model) (s : SymbolId) : Option Value :=
  (m.values[s]?).join

def int? (m : Model) (s : SymbolId) : Option Int64 :=
  match m.get? s with
  | some (.int n) => some n
  | _ => none

def bool? (m : Model) (s : SymbolId) : Option Bool :=
  match m.get? s with
  | some (.bool b) => some b
  | _ => none

/-- Give `s` the value `v`, with room made for `s` if there is none. -/
def set (m : Model) (s : SymbolId) (v : Value) : Model :=
  if s < m.values.size then ⟨m.values.setIfInBounds s (some v)⟩
  else ⟨(m.values ++ Array.replicate (s - m.values.size) none).push (some v)⟩

/-- Set the symbols in turn, so that the last of several values of a symbol stays. -/
def ofList (pairs : List (SymbolId × Value)) : Model :=
  pairs.foldl (fun m q => m.set q.1 q.2) .empty

@[simp] theorem get?_empty (s : SymbolId) : empty.get? s = none := rfl

@[simp] theorem get?_set (m : Model) (s t : SymbolId) (v : Value) :
    (m.set s v).get? t = if t = s then some v else m.get? t := by
  unfold set get?
  split
  · rename_i h
    by_cases e : t = s
    · subst e
      simp [h]
    · have e' : s ≠ t := fun h => e h.symm
      simp [e, e']
  · rename_i h
    have hs := Nat.add_sub_of_le (Nat.le_of_not_lt h)
    rw [Array.getElem?_push]
    simp only [Array.size_append, Array.size_replicate, hs]
    by_cases e : t = s
    · simp [e]
    · rw [if_neg e, if_neg e, Array.getElem?_append]
      split
      · rfl
      · rename_i ht
        rw [Array.getElem?_eq_none (Nat.le_of_not_lt ht), Array.getElem?_replicate]
        split <;> rfl

end Model

end Pathwise
