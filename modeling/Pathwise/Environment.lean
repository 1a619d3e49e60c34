import Pathwise.Fault

/-!
Values and the environments that bind variables to them.

An environment keeps its bindings in increasing order of the names, so it is determined by the values
it answers and lists its variables in a fixed order.
-/

namespace Pathwise

inductive Value
  | int (n : Int64)
  | bool (b : Bool)
  deriving DecidableEq, Repr

def Value.render : Value → String
  | .int n => toString n.toInt
  | .bool b => if b then "true" else "false"

/-- A finite map from names to values, held in increasing order of the names. -/
structure Env where
  bindings : List (String × Value)
  ordered : bindings.Pairwise (fun p q => p.1 < q.1)
  deriving DecidableEq

namespace Env

def empty : Env := ⟨[], .nil⟩

instance : Inhabited Env := ⟨empty⟩

/-- Put one binding in its place, over an earlier binding of the same name. -/
def place (x : String) (v : Value) : List (String × Value) → List (String × Value)
  | [] => [(x, v)]
  | (y, w) :: rest =>
    if x < y then (x, v) :: (y, w) :: rest
    else if x = y then (x, v) :: rest
    else (y, w) :: place x v rest

theorem fst_of_mem_place {x : String} {v : Value} {p : String × Value} :
    ∀ {l : List (String × Value)}, p ∈ place x v l → p.1 = x ∨ p ∈ l
  | [], h => by
    simp only [place, List.mem_singleton] at h
    exact Or.inl (by rw [h])
  | (y, w) :: rest, h => by
    unfold place at h
    split at h
    · rcases List.mem_cons.1 h with rfl | h
      · exact Or.inl rfl
      · exact Or.inr h
    · split at h
      · rcases List.mem_cons.1 h with rfl | h
        · exact Or.inl rfl
        · exact Or.inr (List.mem_cons_of_mem _ h)
      · rcases List.mem_cons.1 h with rfl | h
        · exact Or.inr List.mem_cons_self
        · exact (fst_of_mem_place h).imp id (List.mem_cons_of_mem _)

theorem pairwise_place (x : String) (v : Value) :
    ∀ {l : List (String × Value)}, l.Pairwise (fun p q => p.1 < q.1) →
      (place x v l).Pairwise (fun p q => p.1 < q.1)
  | [], _ => List.pairwise_singleton _ _
  | (y, w) :: rest, h => by
    obtain ⟨hy, hrest⟩ := List.pairwise_cons.1 h
    unfold place
    split
    · rename_i hxy
      refine List.pairwise_cons.2 ⟨fun q hq => ?_, h⟩
      rcases List.mem_cons.1 hq with rfl | hq
      · exact hxy
      · exact String.lt_trans hxy (hy q hq)
    · rename_i hxy
      split
      · rename_i heq
        subst heq
        exact List.pairwise_cons.2 ⟨hy, hrest⟩
      · rename_i hne
        have hyx : y < x := by
          rcases Decidable.em (y < x) with h | h
          · exact h
          · exact absurd (String.le_antisymm (String.not_lt.1 h) (String.not_lt.1 hxy)) hne
        refine List.pairwise_cons.2 ⟨fun q hq => ?_, pairwise_place x v hrest⟩
        rcases fst_of_mem_place hq with h | h
        · rw [h]; exact hyx
        · exact hy q h

/-- Bind `x` to `v`, over an earlier binding of `x`. -/
def insert (env : Env) (x : String) (v : Value) : Env :=
  ⟨place x v env.bindings, pairwise_place x v env.ordered⟩

/-- Bind the pairs in turn, so that the last of several bindings of a name stays. -/
def ofList (pairs : List (String × Value)) : Env :=
  pairs.foldl (fun env p => env.insert p.1 p.2) empty

def get? (env : Env) (x : String) : Option Value :=
  env.bindings.lookup x

theorem lookup_place (x y : String) (v : Value) (l : List (String × Value)) :
    (place x v l).lookup y = if y = x then some v else l.lookup y := by
  induction l with
  | nil =>
    by_cases h : y = x
    · simp [place, h]
    · have hb : (y == x) = false := by simp [h]
      simp [place, List.lookup_cons, h, hb]
  | cons p rest ih =>
    obtain ⟨z, w⟩ := p
    by_cases h : y = x
    · subst h
      unfold place
      split
      · simp
      · split
        · simp
        · rename_i hne
          have hb : (y == z) = false := by simp [hne]
          rw [List.lookup_cons, hb, ih, if_pos rfl, if_pos rfl]
    · have hb : (y == x) = false := by simp [h]
      rw [if_neg h]
      unfold place
      split
      · simp [List.lookup_cons, hb]
      · split
        · rename_i heq
          subst heq
          simp [List.lookup_cons, hb]
        · rw [List.lookup_cons, List.lookup_cons, ih, if_neg h]

@[simp] theorem get?_empty (x : String) : empty.get? x = none := rfl

@[simp] theorem get?_insert (env : Env) (x y : String) (v : Value) :
    (env.insert x v).get? y = if y = x then some v else env.get? y :=
  lookup_place x y v env.bindings

def contains (env : Env) (x : String) : Bool :=
  (env.get? x).isSome

def size (env : Env) : Nat :=
  env.bindings.length

def getInt (env : Env) (x : String) : Except Fault Int64 :=
  match env.get? x with
  | some (.int n) => .ok n
  | some (.bool _) => .error (.notAnInteger x)
  | none => .error (.unbound x)

def getBool (env : Env) (x : String) : Except Fault Bool :=
  match env.get? x with
  | some (.bool b) => .ok b
  | some (.int _) => .error (.notABoolean x)
  | none => .error (.unbound x)

end Env

end Pathwise
