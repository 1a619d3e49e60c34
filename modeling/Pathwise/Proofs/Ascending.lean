import Mathlib.Data.List.Nodup
import Std.Data.TreeSet.Lemmas
import Pathwise.Ascending
import Pathwise.DataFlow

/-!
Sets as lists: the orders in which they are listed are lawful, and each list has the members that it
was made from, every one once.
-/

namespace Pathwise

/-! ## Orders -/

/-- Nodes are ordered by kind, and labelled nodes among themselves by number. -/
def Node.rank : Node → Nat
  | entry => 0
  | point _ => 1
  | exit => 2

theorem Node.compare_eq : (compare : Node → Node → Ordering) =
    compareLex (compareOn Node.rank) (compareOn fun n => n.label?.getD 0) := by
  funext a b
  cases a <;> cases b <;> rfl

instance : Std.TransOrd Node := by
  rw [Std.TransOrd, Node.compare_eq]
  infer_instance

instance : Std.LawfulEqOrd Node where
  eq_of_compare {a b} h :=
    match a, b, h with
    | .entry, .entry, _ => rfl
    | .point _, .point _, h => congrArg Node.point (Std.LawfulEqOrd.eq_of_compare (α := Nat) h)
    | .exit, .exit, _ => rfl

instance : Std.TransOrd Arc :=
  inferInstanceAs (Std.TransCmp (compareLex (compareOn Arc.source) (compareOn Arc.target)))

instance : Std.TransOrd DuPath :=
  inferInstanceAs (Std.TransCmp (compareLex (compareOn DuPath.var) (compareOn DuPath.path)))

instance : Std.TransOrd DefSite :=
  inferInstanceAs (Std.TransCmp (compareLex (compareOn DefSite.var) (compareOn DefSite.node)))

instance : Std.TransOrd DefUse :=
  inferInstanceAs (Std.TransCmp (compareLex (compareOn DefUse.site) (compareOn DefUse.use)))

variable {α κ : Type}

theorem eq_of_compareLex {β γ : Type} [Ord β] [Ord γ] [Std.LawfulEqOrd β] [Std.LawfulEqOrd γ]
    {f : α → β} {g : α → γ} {a b : α}
    (h : compareLex (compareOn f) (compareOn g) a b = .eq) : f a = f b ∧ g a = g b := by
  obtain ⟨hf, hg⟩ := compareLex_eq_eq.1 h
  exact ⟨Std.LawfulEqOrd.eq_of_compare hf, Std.LawfulEqOrd.eq_of_compare hg⟩

instance : Std.LawfulEqOrd Arc where
  eq_of_compare {a b} h := by
    obtain ⟨hs, ht⟩ := eq_of_compareLex h
    cases a
    cases b
    exact congrArg₂ Arc.mk hs ht

instance : Std.LawfulEqOrd DuPath where
  eq_of_compare {a b} h := by
    obtain ⟨hx, hp⟩ := eq_of_compareLex h
    cases a
    cases b
    exact congrArg₂ DuPath.mk hx hp

instance : Std.LawfulEqOrd DefSite where
  eq_of_compare {a b} h := by
    obtain ⟨hx, hn⟩ := eq_of_compareLex h
    cases a
    cases b
    exact congrArg₂ DefSite.mk hx hn

instance : Std.LawfulEqOrd DefUse where
  eq_of_compare {a b} h := by
    obtain ⟨hs, hu⟩ := eq_of_compareLex h
    obtain ⟨x, d, u⟩ := a
    obtain ⟨x', d', u'⟩ := b
    obtain ⟨rfl, rfl⟩ := DefSite.mk.inj hs
    obtain rfl : u = u' := hu
    rfl

/-! ## Members -/

theorem mem_ascending [Ord α] [Std.TransOrd α] [Std.LawfulEqOrd α] {xs : List α} {x : α} :
    x ∈ ascending xs ↔ x ∈ xs := by
  classical
  rw [ascending, ascendingBy, Std.TreeSet.mem_toList, Std.TreeSet.mem_ofList, List.contains_iff_mem]

theorem pairwise_ascending [Ord α] [Std.TransOrd α] (xs : List α) :
    (ascending xs).Pairwise (compare · · = .lt) :=
  Std.TreeSet.ordered_toList

theorem nodup_ascending [Ord α] [Std.TransOrd α] (xs : List α) : (ascending xs).Nodup := by
  refine (pairwise_ascending xs).imp ?_
  rintro a b h rfl
  simp at h

/-- Lists with the same members are listed alike. -/
theorem ascending_congr [Ord α] [Std.TransOrd α] [Std.LawfulEqOrd α] {xs ys : List α}
    (h : ∀ x, x ∈ xs ↔ x ∈ ys) : ascending xs = ascending ys := by
  have hperm : (ascending xs).Perm (ascending ys) := by
    rw [List.perm_ext_iff_of_nodup (nodup_ascending xs) (nodup_ascending ys)]
    intro x
    rw [mem_ascending, mem_ascending, h x]
  refine hperm.eq_of_pairwise ?_ (pairwise_ascending xs) (pairwise_ascending ys)
  intro a b _ _ hab hba
  exact absurd hba (Std.OrientedCmp.not_lt_of_lt hab)

theorem without_eq_filter [DecidableEq α] [Ord α] [Std.TransOrd α] [Std.LawfulEqOrd α]
    (xs ys : List α) : without xs ys = xs.filter (· ∉ ys) := by
  simp [without, Std.TreeSet.contains_ofList]

theorem distinctFrom_sublist [Ord κ] (key : α → κ) (met : Std.TreeSet κ compare)
    (xs : List α) : (distinctFrom key met xs).Sublist xs := by
  induction xs generalizing met with
  | nil => exact .slnil
  | cons x xs ih =>
    rw [distinctFrom]
    split
    · exact (ih met).cons x
    · exact (ih _).cons_cons x

section
variable [Ord κ] [Std.TransOrd κ] [Std.LawfulEqOrd κ] (key : α → κ)

/-- The keys of the list are kept, apart from those met before. -/
theorem mem_map_distinctFrom {met : Std.TreeSet κ compare} {xs : List α} {k : κ} :
    k ∈ (distinctFrom key met xs).map key ↔ k ∈ xs.map key ∧ k ∉ met := by
  induction xs generalizing met with
  | nil => simp [distinctFrom]
  | cons x xs ih =>
    by_cases hx : key x ∈ met
    · have hne : k ∉ met → k ≠ key x := fun hk he => hk (he ▸ hx)
      rw [distinctFrom, if_pos (Std.TreeSet.contains_iff_mem.2 hx), ih, List.map_cons, List.mem_cons]
      tauto
    · have hcmp : compare (key x) k = .eq ↔ k = key x := by
        rw [Std.LawfulEqOrd.compare_eq_iff_eq, eq_comm]
      rw [distinctFrom, if_neg (Std.TreeSet.contains_iff_mem.not.2 hx), List.map_cons, List.mem_cons, ih,
        List.map_cons, List.mem_cons, Std.TreeSet.mem_insert, hcmp]
      by_cases hk : k = key x
      · simp [hk, hx]
      · simp [hk]

theorem nodup_map_distinctFrom {met : Std.TreeSet κ compare} (xs : List α) :
    ((distinctFrom key met xs).map key).Nodup := by
  induction xs generalizing met with
  | nil => simp [distinctFrom]
  | cons x xs ih =>
    by_cases hx : met.contains (key x) = true
    · rw [distinctFrom, if_pos hx]
      exact ih
    · rw [distinctFrom, if_neg hx, List.map_cons, List.nodup_cons, mem_map_distinctFrom]
      exact ⟨fun h => h.2 Std.TreeSet.mem_insert_self, ih⟩

end

theorem mem_distinct [Ord α] [Std.TransOrd α] [Std.LawfulEqOrd α] {xs : List α} {x : α} :
    x ∈ distinct xs ↔ x ∈ xs := by
  have h : x ∈ (distinct xs).map id ↔ x ∈ xs.map id ∧ x ∉ (∅ : Std.TreeSet α compare) :=
    mem_map_distinctFrom id
  simpa using h

theorem nodup_distinct [Ord α] [Std.TransOrd α] [Std.LawfulEqOrd α] (xs : List α) :
    (distinct xs).Nodup := by
  have h : ((distinct xs).map id).Nodup := nodup_map_distinctFrom id xs
  simpa using h

/-! ## Tables over a list of keys -/

section
variable {β : Type} [DecidableEq α]

theorem lookup_filterMap_self (f : α → Option β) (xs : List α) (x : α) :
    (xs.filterMap fun a => (f a).map (a, ·)).lookup x = if x ∈ xs then f x else none := by
  induction xs with
  | nil => rfl
  | cons a xs ih =>
    cases hf : f a with
    | none =>
      rw [List.filterMap_cons_none (by simp [hf]), ih]
      by_cases hx : x = a
      · simp [hx, hf]
      · simp [hx]
    | some b =>
      rw [List.filterMap_cons_some (by rw [hf]; rfl)]
      by_cases hx : x = a
      · simp [hx, hf]
      · simp [List.lookup_cons, beq_eq_false_iff_ne.2 hx, ih, hx]

theorem lookup_map_self (f : α → β) (xs : List α) (x : α) :
    (xs.map fun a => (a, f a)).lookup x = if x ∈ xs then some (f x) else none := by
  simpa [List.filterMap_eq_map] using lookup_filterMap_self (fun a => some (f a)) xs x

end

theorem map_fst_filterMap_self {β : Type} {f : α → Option β} {xs : List α}
    (h : ∀ x ∈ xs, (f x).isSome) : (xs.filterMap fun a => (f a).map (a, ·)).map (·.1) = xs := by
  have hkey : ∀ x ∈ xs, ((f x).map (x, ·)).map (·.1) = some x := by
    intro x hx
    obtain ⟨b, hb⟩ := Option.isSome_iff_exists.1 (h x hx)
    simp [hb]
  rw [List.map_filterMap, List.filterMap_congr hkey, List.filterMap_some]

/-! ## Lists by length -/

theorem shortestFirst_perm (xs : List (List α)) : (shortestFirst xs).Perm xs := by
  rw [shortestFirst_eq_mergeSort]
  exact List.mergeSort_perm _ _

theorem pairwise_shortestFirst (xs : List (List α)) :
    (shortestFirst xs).Pairwise (·.length ≤ ·.length) := by
  rw [shortestFirst_eq_mergeSort]
  refine (List.pairwise_mergeSort ?_ ?_ xs).imp fun h => of_decide_eq_true h
  · intro a b c hab hbc
    simp only [decide_eq_true_eq] at hab hbc ⊢
    exact Nat.le_trans hab hbc
  · intro a b
    simpa using Nat.le_total a.length b.length

end Pathwise
