import Pathwise.Constraint.Propagation
import Pathwise.Proofs.Interval
import Pathwise.Proofs.Constraint.Completion

/-!
Propagation loses no solution.

A narrowing keeps a model if it comes to an end and the model's values are still in the domains. Every
narrowing by a fact that is true of a model keeps that model: a comparison that holds, a definition
whose target has the defined value, a conjunct that is true. So the whole of propagation keeps every
solution (`propagate_of_solves`), and a problem whose propagation fails has none.
-/

namespace Pathwise

/-- The value as a number, with 0 and 1 for the truth values. -/
def Value.number : Value → Int64
  | int n => n
  | bool b => if b then 1 else 0

/-- Read as an integer, a number is in the 64-bit range. -/
theorem fit_toInt (n : Int64) : fit n.toInt = .ok n := by
  have h := toInt_bounds n
  simp [fit, fit?, h]

namespace Domains

/-- The values of the model are in the domains of their symbols. -/
def Admits (ds : Domains) (m : Model) : Prop :=
  ∀ s v, m.get? s = some v → v.number ∈ ds.of (.sym s)

/-- The narrowing succeeds with domains that the model is within. -/
def Keeps (m : Model) (r : Option Domains) : Prop :=
  ∃ ds, r = some ds ∧ ds.Admits m

variable {m : Model} {ds : Domains} {t a b : Term} {i : Interval} {s : SymbolId} {v : Value}
  {n x y : Int64}

theorem Keeps.bind {r : Option Domains} {f : Domains → Option Domains} (hr : Keeps m r)
    (hf : ∀ ds, ds.Admits m → Keeps m (f ds)) : Keeps m (r >>= f) := by
  obtain ⟨ds, rfl, hds⟩ := hr
  exact hf ds hds

theorem Keeps.foldlM {α : Type} {f : Domains → α → Option Domains} {xs : List α}
    (hf : ∀ x ∈ xs, ∀ ds, ds.Admits m → Keeps m (f ds x)) (hds : ds.Admits m) :
    Keeps m (xs.foldlM f ds) := by
  induction xs generalizing ds with
  | nil => exact ⟨ds, rfl, hds⟩
  | cons x xs ih =>
    rw [List.foldlM_cons]
    refine Keeps.bind (hf x (by simp) ds hds) fun ds' hds' => ?_
    exact ih (fun x' hx' => hf x' (by simp [hx'])) hds'

theorem keeps_some (hds : ds.Admits m) : Keeps m (some ds) := ⟨ds, rfl, hds⟩

/-! ## Terms -/

theorem mem_of_eval (hds : ds.Admits m) (ht : t.eval m = some n) : n ∈ ds.of t := by
  cases t with
  | const k =>
    cases ht
    exact Interval.mem_point n
  | sym s => exact hds s (.int n) (Model.int?_eq_some.1 ht)

theorem of_setIfInBounds (ds : Domains) (s u : SymbolId) (i : Interval) :
    Domains.of (ds.setIfInBounds s i) (.sym u) =
      if u = s ∧ s < ds.size then i else ds.of (.sym u) := by
  by_cases hu : u = s
  · subst hu
    by_cases hs : u < ds.size
    · simp [of, hs]
    · simp [of, hs]
  · have hu' : ¬ s = u := fun h => hu h.symm
    simp [of, hu, hu']

theorem keeps_restrict_sym (hds : ds.Admits m) (hs : m.get? s = some v) (hv : v.number ∈ i) :
    Keeps m (ds.restrict (.sym s) i) := by
  have hr : v.number ∈ (ds.of (.sym s)).intersect i := Interval.mem_intersect (hds s v hs) hv
  refine ⟨ds.setIfInBounds s ((ds.of (.sym s)).intersect i), ?_, ?_⟩
  · simp [restrict, Interval.isEmpty_of_mem hr]
  · intro u w hu
    rw [of_setIfInBounds]
    split
    · rename_i h
      obtain ⟨rfl, -⟩ := h
      rw [hs] at hu
      cases hu
      exact hr
    · exact hds u w hu

theorem keeps_restrict (hds : ds.Admits m) (ht : t.eval m = some n) (hn : n ∈ i) :
    Keeps m (ds.restrict t i) := by
  cases t with
  | const k =>
    cases ht
    simp only [restrict, Interval.contains_iff.2 hn, ↓reduceIte]
    exact keeps_some hds
  | sym s => exact keeps_restrict_sym hds (Model.int?_eq_some.1 ht) hn

/-! ## Comparisons -/

theorem keeps_exclude (hds : ds.Admits m) (ht : t.eval m = some x) (hne : x ≠ n) :
    Keeps m (ds.exclude t n) := by
  have hx := mem_of_eval hds ht
  have hx' := Interval.mem_iff.1 hx
  have hne' : x.toInt ≠ n.toInt := fun h => hne (Int64.toInt_inj.1 h)
  simp only [exclude]
  split
  · rename_i hp
    exact absurd (Interval.eq_of_point? hp hx) hne
  · split
    · rename_i hlo
      rw [hlo] at hx'
      exact keeps_restrict hds ht (Interval.mem_ofBounds (by omega) (by omega))
    · split
      · rename_i hhi
        rw [hhi] at hx'
        exact keeps_restrict hds ht (Interval.mem_ofBounds (by omega) (by omega))
      · exact keeps_some hds

theorem keeps_excludePoint (hds : ds.Admits m) (ha : a.eval m = some x) (hb : b.eval m = some y)
    (hne : x ≠ y) : Keeps m (ds.excludePoint a b) := by
  unfold excludePoint
  split
  · rename_i n hp
    have hy : y = n := Interval.eq_of_point? hp (mem_of_eval hds hb)
    subst hy
    exact keeps_exclude hds ha hne
  · exact keeps_some hds

theorem keeps_atMost (hds : ds.Admits m) (ha : a.eval m = some x) (hb : b.eval m = some y)
    (h : x ≤ y) : Keeps m (ds.atMost a b) := by
  have hx := mem_of_eval hds ha
  have hy := mem_of_eval hds hb
  refine Keeps.bind (keeps_restrict hds ha ?_) fun ds' hds' => keeps_restrict hds' hb ?_
  · exact ⟨x.minValue_le, Int64.le_trans h hy.2⟩
  · exact ⟨Int64.le_trans hx.1 h, y.le_maxValue⟩

theorem keeps_below (hds : ds.Admits m) (ha : a.eval m = some x) (hb : b.eval m = some y)
    (h : x < y) : Keeps m (ds.below a b) := by
  have hx := Interval.mem_iff.1 (mem_of_eval hds ha)
  have hy := Interval.mem_iff.1 (mem_of_eval hds hb)
  have hxy := Int64.lt_iff_toInt_lt.1 h
  have hx' := Interval.mem_iff.1 (Interval.mem_full x)
  have hy' := Interval.mem_iff.1 (Interval.mem_full y)
  refine Keeps.bind (keeps_restrict hds ha ?_) fun ds' hds' => keeps_restrict hds' hb ?_
  · exact Interval.mem_ofBounds hx'.1 (by omega)
  · exact Interval.mem_ofBounds (by omega) hy'.2

theorem keeps_equate (hds : ds.Admits m) (ha : a.eval m = some x) (hb : b.eval m = some x) :
    Keeps m (ds.equate a b) := by
  have hx : x ∈ (ds.of a).intersect (ds.of b) :=
    Interval.mem_intersect (mem_of_eval hds ha) (mem_of_eval hds hb)
  exact Keeps.bind (keeps_restrict hds ha hx) fun ds' hds' => keeps_restrict hds' hb hx

theorem keeps_compare {op : CmpOp} (hds : ds.Admits m) (ha : a.eval m = some x)
    (hb : b.eval m = some y) (h : op.holds x y = true) : Keeps m (ds.compare op a b) := by
  cases op with
  | eq =>
    have hxy : x = y := by simpa [CmpOp.holds] using h
    subst hxy
    exact keeps_equate hds ha hb
  | ne =>
    have hxy : x ≠ y := by simpa [CmpOp.holds] using h
    refine Keeps.bind (keeps_excludePoint hds ha hb hxy) fun ds' hds' => ?_
    exact keeps_excludePoint hds' hb ha hxy.symm
  | lt => exact keeps_below hds ha hb (by simpa [CmpOp.holds] using h)
  | le => exact keeps_atMost hds ha hb (by simpa [CmpOp.holds] using h)
  | gt => exact keeps_below hds hb ha (by simpa [CmpOp.holds] using h)
  | ge => exact keeps_atMost hds hb ha (by simpa [CmpOp.holds] using h)

/-! ## Definitions -/

theorem mem_value {d : Definition} (hds : ds.Admits m) (hd : d.eval m = some n) :
    n ∈ ds.value d := by
  cases d with
  | copy t => exact mem_of_eval hds hd
  | unary op t =>
    obtain ⟨x, hx, hop⟩ := Definition.eval_unary.1 hd
    exact UnaryOp.mem_onIntervals (mem_of_eval hds hx) hop
  | binary op a b =>
    obtain ⟨x, y, hx, hy, hop⟩ := Definition.eval_binary.1 hd
    exact ArithOp.mem_onIntervals (mem_of_eval hds hx) (mem_of_eval hds hy) hop

/-- The operands of a definition, computed back from its result and each other. -/
theorem keeps_operands {d : Definition} (hds : ds.Admits m) (hd : d.eval m = some n) (hn : n ∈ i) :
    Keeps m (ds.operands i d) := by
  cases d with
  | copy t => exact keeps_restrict hds hd hn
  | unary op t =>
    obtain ⟨x, hx, hop⟩ := Definition.eval_unary.1 hd
    cases op with
    | plus =>
      cases hop
      exact keeps_restrict hds hx hn
    | neg =>
      have hnx : n.toInt = -x.toInt := toInt_of_fit hop
      refine keeps_restrict hds hx (Interval.mem_neg hn ?_)
      rw [hnx, Int.neg_neg]
      exact fit_toInt x
    | abs =>
      have hnx : n.toInt = x.toInt.natAbs := toInt_of_fit hop
      have hb : n ∈ i.intersect .nonNegative := by
        refine Interval.mem_intersect hn ⟨Int64.le_iff_toInt_le.2 ?_, n.le_maxValue⟩
        show 0 ≤ n.toInt
        omega
      have hb' := Interval.mem_iff.1 hb
      simp only [operands, Interval.isEmpty_of_mem hb, Bool.false_eq_true, ↓reduceIte]
      exact keeps_restrict hds hx (Interval.mem_ofBounds (by omega) (by omega))
  | binary op a b =>
    obtain ⟨x, y, hx, hy, hop⟩ := Definition.eval_binary.1 hd
    cases op with
    | add =>
      have hnxy : n.toInt = x.toInt + y.toInt := toInt_of_fit hop
      have hx' : fit (n.toInt - y.toInt) = .ok x := by
        rw [hnxy, Int.add_sub_cancel]
        exact fit_toInt x
      have hy' : fit (n.toInt - x.toInt) = .ok y := by
        rw [hnxy, Int.add_comm, Int.add_sub_cancel]
        exact fit_toInt y
      refine Keeps.bind (keeps_restrict hds hx (Interval.mem_sub hn (mem_of_eval hds hy) hx')) ?_
      intro ds' hds'
      exact keeps_restrict hds' hy (Interval.mem_sub hn (mem_of_eval hds' hx) hy')
    | sub =>
      have hnxy : n.toInt = x.toInt - y.toInt := toInt_of_fit hop
      have hx' : fit (n.toInt + y.toInt) = .ok x := by
        rw [hnxy, Int.sub_add_cancel]
        exact fit_toInt x
      have hy' : fit (x.toInt - n.toInt) = .ok y := by
        rw [hnxy, Int.sub_sub_self]
        exact fit_toInt y
      refine Keeps.bind (keeps_restrict hds hx (Interval.mem_add hn (mem_of_eval hds hy) hx')) ?_
      intro ds' hds'
      exact keeps_restrict hds' hy (Interval.mem_sub (mem_of_eval hds' hx) hn hy')
    | pow => exact keeps_restrict hds hy ⟨Interval.nonneg_of_power hop, y.le_maxValue⟩
    | mul => exact keeps_some hds
    | div => exact keeps_some hds
    | mod => exact keeps_some hds

theorem keeps_define {d : Definition} (hds : ds.Admits m) (hd : d.eval m = some n)
    (hs : m.get? s = some (.int n)) : Keeps m (ds.define s d) := by
  refine Keeps.bind (keeps_restrict_sym hds hs (mem_value hds hd)) fun ds' hds' => ?_
  exact keeps_operands hds' hd (hds' s (.int n) hs)

/-! ## Constraints -/

theorem keeps_assertPart {f : Formula} (hds : ds.Admits m) (hf : f.eval m = some true) :
    Keeps m (ds.assertPart f) := by
  unfold assertPart
  split
  · cases hf
    exact keeps_some hds
  · rename_i s
    exact keeps_restrict_sym hds (Model.bool?_eq_some.1 hf) (Interval.mem_point 1)
  · rename_i s
    have hs : m.bool? s = some false := by
      simp only [Formula.eval] at hf
      split at hf
      · rename_i b hb
        cases b with
        | false => exact hb
        | true => cases hf
      · cases hf
    exact keeps_restrict_sym hds (Model.bool?_eq_some.1 hs) (Interval.mem_point 0)
  · obtain ⟨x, y, hx, hy, hop⟩ := Formula.eval_cmp.1 hf
    exact keeps_compare hds hx hy hop
  · exact keeps_some hds

theorem keeps_enforce {c : Constraint} (hds : ds.Admits m) (hc : c.Holds m) :
    Keeps m (ds.enforce c) := by
  cases c with
  | define s d =>
    obtain ⟨n, hd, hs⟩ := hc
    exact keeps_define hds hd hs
  | assert f =>
    have hparts := Formula.eval_eq_true_iff_conjuncts.1 hc
    exact Keeps.foldlM (fun g hg ds' hds' => keeps_assertPart hds' (hparts g hg)) hds

theorem keeps_narrow {cs : List Constraint} (hcs : ∀ c ∈ cs, c.Holds m) (rounds : Nat)
    (hds : ds.Admits m) : Keeps m (narrow cs rounds ds) := by
  induction rounds generalizing ds with
  | zero => exact keeps_some hds
  | succ rounds ih =>
    refine Keeps.bind (Keeps.foldlM (fun c hc ds' hds' => keeps_enforce hds' (hcs c hc)) hds) ?_
    intro ds' hds'
    show Keeps m (if ds' = ds then some ds' else narrow cs rounds ds')
    split
    · exact keeps_some hds'
    · exact ih hds'

end Domains

namespace Problem

variable {p : Problem} {m : Model}

theorem Solves.admits_initialDomains (h : p.Solves m) : p.initialDomains.Admits m := by
  intro s v hv
  by_cases hs : s < p.symbols.length
  · obtain ⟨w, hw, hkind⟩ := h.kinds s hs
    rw [hv] at hw
    cases hw
    have hk : p.kindOf s = p.symbols[s].kind := by simp [kindOf, hs]
    rw [hk] at hkind
    simp only [initialDomains, Domains.of, List.getElem?_toArray, List.getElem?_map,
      List.getElem?_eq_getElem hs, Option.map_some, Option.getD_some, ← hkind]
    cases v with
    | int n => exact Interval.mem_full n
    | bool b =>
      show (Value.bool b).number ∈ Interval.truth
      rw [← Interval.contains_iff]
      cases b <;> rfl
  · have hnone : p.initialDomains[s]? = none := by
      simp only [initialDomains, List.getElem?_toArray, List.getElem?_map]
      rw [List.getElem?_eq_none (Nat.le_of_not_lt hs)]
      rfl
    simp only [Domains.of, hnone, Option.getD_none]
    exact Interval.mem_full v.number

/-- Propagation ends with domains that hold the values of every solution. -/
theorem propagate_of_solves (h : p.Solves m) : ∃ ds, p.propagate = some ds ∧ ds.Admits m :=
  Domains.keeps_narrow h.holds 64 h.admits_initialDomains

end Problem

end Pathwise
