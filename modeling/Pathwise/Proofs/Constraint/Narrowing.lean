import Pathwise.Proofs.Constraint.Propagation

/-!
What propagation does to the domains.

All it ever does is to keep the value of some term within some interval, step after step, and to give up
when a domain becomes empty (`narrowsTo_enforce`). So whatever it comes to, every symbol still has its
domain and every domain still has a member (`Narrows.size_eq`, `Narrows.isEmpty_eq_false`); and since
propagation loses no solution, the domains hold the values of every completed model.
-/

namespace Pathwise

theorem Interval.lo_mem_of_isEmpty {i : Interval} (h : i.isEmpty = false) : i.lo ∈ i := by
  refine ⟨Int64.le_refl _, Int64.not_lt.1 ?_⟩
  simpa [isEmpty] using h

namespace Domains

variable {ds ds' ds'' : Domains} {t a b : Term} {i : Interval}

/-! ## Steps -/

/-- From `ds` one comes to `ds'` by keeping values within intervals. -/
inductive Narrows : Domains → Domains → Prop
  | refl (ds : Domains) : Narrows ds ds
  | step {ds ds' ds'' : Domains} {t : Term} {i : Interval} :
    ds.restrict t i = some ds' → Narrows ds' ds'' → Narrows ds ds''

theorem Narrows.trans (h : Narrows ds ds') (h' : Narrows ds' ds'') : Narrows ds ds'' := by
  induction h with
  | refl => exact h'
  | step hr _ ih => exact .step hr (ih h')

/-- What the narrowing comes to, if to anything, it comes to from `ds` in such steps. -/
def NarrowsTo (ds : Domains) (r : Option Domains) : Prop :=
  ∀ ds', r = some ds' → Narrows ds ds'

theorem narrowsTo_some : NarrowsTo ds (some ds) := by
  rintro _ ⟨⟩
  exact .refl _

theorem narrowsTo_none : NarrowsTo ds none := by
  rintro _ ⟨⟩

theorem narrowsTo_restrict : NarrowsTo ds (ds.restrict t i) :=
  fun ds' h => .step h (.refl ds')

theorem NarrowsTo.bind {r : Option Domains} {f : Domains → Option Domains} (hr : NarrowsTo ds r)
    (hf : ∀ ds', NarrowsTo ds' (f ds')) : NarrowsTo ds (r >>= f) := by
  intro ds'' h
  obtain ⟨ds', hds', hf'⟩ := Option.bind_eq_some_iff.1 h
  exact (hr ds' hds').trans (hf ds' ds'' hf')

theorem NarrowsTo.foldlM {α : Type} {f : Domains → α → Option Domains}
    (hf : ∀ ds x, NarrowsTo ds (f ds x)) {xs : List α} : NarrowsTo ds (xs.foldlM f ds) := by
  induction xs generalizing ds with
  | nil => exact narrowsTo_some
  | cons x xs ih =>
    rw [List.foldlM_cons]
    exact (hf ds x).bind fun ds' => ih

/-! ## Constraints take such steps -/

theorem narrowsTo_exclude {n : Int64} : NarrowsTo ds (ds.exclude t n) := by
  simp only [exclude]
  split
  · exact narrowsTo_none
  · split
    · exact narrowsTo_restrict
    · split
      · exact narrowsTo_restrict
      · exact narrowsTo_some

theorem narrowsTo_excludePoint : NarrowsTo ds (ds.excludePoint a b) := by
  unfold excludePoint
  split
  · exact narrowsTo_exclude
  · exact narrowsTo_some

theorem narrowsTo_compare {op : CmpOp} : NarrowsTo ds (ds.compare op a b) := by
  cases op with
  | eq => exact narrowsTo_restrict.bind fun ds' => narrowsTo_restrict
  | ne => exact narrowsTo_excludePoint.bind fun ds' => narrowsTo_excludePoint
  | lt | le | gt | ge => exact narrowsTo_restrict.bind fun ds' => narrowsTo_restrict

theorem narrowsTo_operands {d : Definition} : NarrowsTo ds (ds.operands i d) := by
  cases d with
  | copy t => exact narrowsTo_restrict
  | unary op t =>
    cases op with
    | plus | neg => exact narrowsTo_restrict
    | abs =>
      simp only [operands]
      split
      · exact narrowsTo_none
      · exact narrowsTo_restrict
  | binary op a b =>
    cases op with
    | add | sub => exact narrowsTo_restrict.bind fun ds' => narrowsTo_restrict
    | pow => exact narrowsTo_restrict
    | mul | div | mod => exact narrowsTo_some

theorem narrowsTo_assertPart {f : Formula} : NarrowsTo ds (ds.assertPart f) := by
  unfold assertPart
  split
  · split
    · exact narrowsTo_some
    · exact narrowsTo_none
  · exact narrowsTo_restrict
  · exact narrowsTo_restrict
  · exact narrowsTo_compare
  · exact narrowsTo_some

theorem narrowsTo_enforce {c : Constraint} : NarrowsTo ds (ds.enforce c) := by
  cases c with
  | define s d => exact narrowsTo_restrict.bind fun ds' => narrowsTo_operands
  | assert f => exact NarrowsTo.foldlM fun ds g => narrowsTo_assertPart

theorem narrowsTo_narrow {cs : List Constraint} {rounds : Nat} :
    NarrowsTo ds (narrow cs rounds ds) := by
  induction rounds generalizing ds with
  | zero => exact narrowsTo_some
  | succ rounds ih =>
    refine (NarrowsTo.foldlM fun ds c => narrowsTo_enforce).bind fun ds' => ?_
    show NarrowsTo ds' (if ds' = ds then some ds' else narrow cs rounds ds')
    split
    · exact narrowsTo_some
    · exact ih

/-! ## What such steps keep -/

/-- All that a step can do: leave the domains as they are, or put one with members in place of one. -/
theorem restrict_cases (h : ds.restrict t i = some ds') :
    ds' = ds ∨ ∃ s r, r.isEmpty = false ∧ ds' = ds.setIfInBounds s r := by
  unfold restrict at h
  split at h
  · split at h
    · exact .inl (Option.some.inj h).symm
    · cases h
  · rename_i s
    simp only at h
    split at h
    · cases h
    · rename_i hr
      exact .inr ⟨s, _, Bool.eq_false_iff.2 hr, (Option.some.inj h).symm⟩

theorem Narrows.size_eq (h : Narrows ds ds') : ds'.size = ds.size := by
  induction h with
  | refl => rfl
  | step hr _ ih =>
    rw [ih]
    obtain rfl | ⟨s, r, -, rfl⟩ := restrict_cases hr
    · rfl
    · exact Array.size_setIfInBounds

theorem Narrows.isEmpty_eq_false (h : Narrows ds ds') (hds : ∀ d ∈ ds, d.isEmpty = false) :
    ∀ d ∈ ds', d.isEmpty = false := by
  induction h with
  | refl => exact hds
  | step hr _ ih =>
    refine ih fun d hd => ?_
    obtain rfl | ⟨s, r, hempty, rfl⟩ := restrict_cases hr
    · exact hds d hd
    · rcases Array.mem_or_eq_of_mem_setIfInBounds hd with hd | rfl
      · exact hds d hd
      · exact hempty

end Domains

/-! ## Propagation -/

namespace Problem

variable {p : Problem} {ds : Domains}

theorem isEmpty_of_mem_initialDomains {d : Interval} (hd : d ∈ p.initialDomains) :
    d.isEmpty = false := by
  obtain ⟨symbol, -, rfl⟩ := List.mem_map.1 (List.mem_toArray.1 hd)
  cases symbol.kind <;> rfl

theorem narrows_of_propagate (h : p.propagate = some ds) : Domains.Narrows p.initialDomains ds :=
  Domains.narrowsTo_narrow ds h

theorem size_of_propagate (h : p.propagate = some ds) : ds.size = p.symbols.length := by
  rw [(narrows_of_propagate h).size_eq]
  simp [initialDomains]

/-- Propagation does not fail where values of the free symbols can be completed, and it keeps the value
of every symbol in the domain of the symbol. Whatever it is applied to, every domain that it comes to
has a member. -/
theorem propagate_keeps_completions (p : Problem) :
    (p.WellFormed → ∀ f m,
      (∀ s ∈ p.free, ∃ v, f.get? s = some v ∧ v.kind = p.kindOf s) → p.complete f = some m →
      ∃ ds : Domains, p.propagate = some ds ∧
        ∀ s < p.symbols.length, ∃ v d, m.get? s = some v ∧ ds[s]? = some d ∧ v.number ∈ d) ∧
    ∀ ds, p.propagate = some ds → ∀ d ∈ ds, ∃ n, n ∈ d := by
  constructor
  · intro hp f m hf hm
    have hkinds : ∀ s ∈ p.free, ∀ v, f.get? s = some v → v.kind = p.kindOf s := by
      intro s hs v hv
      obtain ⟨w, hw, hkind⟩ := hf s hs
      rw [hv] at hw
      cases hw
      exact hkind
    have hsolves := solves_of_complete hp hkinds hm
    obtain ⟨ds, hds, hadmits⟩ := propagate_of_solves hsolves
    refine ⟨ds, hds, fun s hs => ?_⟩
    obtain ⟨v, hv, -⟩ := hsolves.kinds s hs
    have hsize : s < ds.size := by
      rw [size_of_propagate hds]
      exact hs
    refine ⟨v, ds[s], hv, Array.getElem?_eq_getElem hsize, ?_⟩
    simpa [Domains.of, hsize] using hadmits s v hv
  · intro ds hds d hd
    refine ⟨d.lo, Interval.lo_mem_of_isEmpty ?_⟩
    exact (narrows_of_propagate hds).isEmpty_eq_false (fun _ => isEmpty_of_mem_initialDomains) d hd

end Problem

/-- A level three below a reading, a switch, and what is required of them. -/
def gauge : Problem where
  symbols := [⟨"reading", .int, .initial "reading"⟩, ⟨"on", .bool, .initial "on"⟩,
    ⟨"level", .int, .version "level" 1⟩]
  constraints := [.define 2 (.binary .sub (.sym 0) (.const 3)),
    .assert (.all [.sym 1, .cmp .ne (.sym 2) (.const 0), .cmp .lt (.sym 2) (.const 10)]),
    .assert (.cmp .gt (.sym 0) (.const 3))]

theorem wellFormed_gauge : gauge.WellFormed where
  inRange := by decide
  intTargets := by simp [gauge, Constraint.target?, Problem.kindOf]
  freshTargets := by
    simp [gauge, Constraint.target?, Constraint.symbols, Definition.symbols, Definition.operands,
      Term.symbols]
  noCycles := by simp [gauge, Definition.symbols, Definition.operands, Term.symbols]

/-- The reading comes to be within the bounds of the level, and the switch to be on. -/
theorem propagate_keeps_completions_gauge : gauge.WellFormed ∧ ∃ m ds,
    gauge.complete ⟨#[some (.int 5), some (.bool true)]⟩ = some m ∧ gauge.propagate = some ds ∧
    ds = #[⟨4, 12⟩, ⟨1, 1⟩, ⟨1, 9⟩] ∧
    (∀ s < 3, ∃ v d, m.get? s = some v ∧ ds[s]? = some d ∧ v.number ∈ d) ∧ ∀ d ∈ ds, ∃ n, n ∈ d := by
  obtain ⟨hcompletions, hmembers⟩ := Problem.propagate_keeps_completions gauge
  have hfree : ∀ s ∈ gauge.free, ∃ v,
      Model.get? ⟨#[some (.int 5), some (.bool true)]⟩ s = some v ∧ v.kind = gauge.kindOf s := by
    have hsymbols : gauge.free = [0, 1] := by decide
    rw [hsymbols]
    intro s hs
    simp only [List.mem_cons, List.not_mem_nil, or_false] at hs
    rcases hs with rfl | rfl
    · exact ⟨.int 5, rfl, rfl⟩
    · exact ⟨.bool true, rfl, rfl⟩
  have hm : gauge.complete ⟨#[some (.int 5), some (.bool true)]⟩ =
      some ⟨#[some (.int 5), some (.bool true), some (.int 2)]⟩ := by decide +kernel
  have heval : gauge.propagate = some #[⟨4, 12⟩, ⟨1, 1⟩, ⟨1, 9⟩] := by decide +kernel
  obtain ⟨ds, hds, hvalues⟩ := hcompletions wellFormed_gauge _ _ hfree hm
  exact ⟨wellFormed_gauge, _, ds, hm, hds, Option.some.inj (hds.symm.trans heval), hvalues,
    hmembers ds hds⟩

end Pathwise
