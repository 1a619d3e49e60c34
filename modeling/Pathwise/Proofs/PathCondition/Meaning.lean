import Pathwise.Proofs.PathCondition.Invariants

/-!
What a path condition says of the machine that starts on the path.

A start machine gives a value to each symbol of an initial value and of an input (`given`). It meets the
condition with a model `μ` if it has values of the right kinds to give and the constraints, enforced in
order, lead to `μ` (`Meets`). While the path is encoded, the machine that runs along it is tracked by the
condition: the symbols of the slots have the values of the variables (`Tracks`).

Every piece of encoding is described in one form: the condition that it leads to can be met exactly if
the piece has an outcome, and the model then agrees with the outcome (`Yields`).
-/

namespace Pathwise

theorem Env.get?_ofList (pairs : List (String × Value)) (x : String) :
    (∃ v, (x, v) ∈ pairs ∧ (ofList pairs).get? x = some v) ∨
      ((∀ v, (x, v) ∉ pairs) ∧ (ofList pairs).get? x = none) :=
  get_foldl_set (fun env x v y => get?_insert env x y v) pairs .empty x

namespace PathCondition

/-! ## What a start machine gives -/

/-- The machine has a value of the right kind for every variable whose initial value the condition
speaks of, and enough inputs. -/
structure Supplied (c : PathCondition) (m : Machine) : Prop where
  bound : ∀ q ∈ c.initial, ∃ v, m.env.get? q.1 = some v ∧ v.kind = c.problem.kindOf q.2
  enough : c.inputs.length ≤ m.inputs.length

/-- The model that sets each initial symbol to the value of its variable, and each input symbol to the
input read for it. -/
def given (c : PathCondition) (m : Machine) : Model :=
  .ofList ((c.initial.filterMap fun (x, s) => (m.env.get? x).map (s, ·)) ++
    (c.inputs.zip m.inputs).map fun (q, n) => (q.2, .int n))

/-- The model has the values of the machine for the symbols of initial values and inputs. -/
structure Reflects (c : PathCondition) (m : Machine) (f : Model) : Prop where
  initial : ∀ q ∈ c.initial, ∀ v, m.env.get? q.1 = some v → f.get? q.2 = some v
  inputs : ∀ (j : Nat) q n, c.inputs[j]? = some q → m.inputs[j]? = some n →
    f.get? q.2 = some (.int n)

variable {c c' c₁ c₂ : PathCondition} {m r : Machine} {f μ μ' : Model} {x : String} {k : Kind}
  {s : SymbolId} {v : Value}

theorem cases_of_given (h : (c.given m).get? s = some v) :
    (∃ x, (x, s) ∈ c.initial ∧ m.env.get? x = some v) ∨
      ∃ (j : Nat) (x : String) (n : Int64), c.inputs[j]? = some (x, s) ∧ m.inputs[j]? = some n ∧ v = .int n := by
  unfold given at h
  rcases Model.get?_ofList _ s with ⟨w, hw, hget⟩ | ⟨-, hget⟩
  · rw [hget] at h
    cases h
    rcases List.mem_append.1 hw with hw | hw
    · obtain ⟨⟨x, s'⟩, hmem, hq⟩ := List.mem_filterMap.1 hw
      obtain ⟨u, hu, hpair⟩ := Option.map_eq_some_iff.1 hq
      cases hpair
      exact .inl ⟨x, hmem, hu⟩
    · obtain ⟨⟨⟨x, s'⟩, n⟩, hmem, hq⟩ := List.mem_map.1 hw
      cases hq
      obtain ⟨j, hj⟩ := List.getElem?_of_mem hmem
      rw [List.getElem?_zip_eq_some] at hj
      exact .inr ⟨j, x, n, hj.1, hj.2, rfl⟩
  · rw [hget] at h
    cases h

theorem given_ne_none_of_initial {q : String × SymbolId} (hq : q ∈ c.initial)
    (hv : m.env.get? q.1 = some v) : (c.given m).get? q.2 ≠ none := by
  unfold given
  rcases Model.get?_ofList _ q.2 with ⟨w, -, hget⟩ | ⟨hnone, -⟩
  · rw [hget]
    simp
  · refine absurd (List.mem_append_left _ ?_) (hnone v)
    exact List.mem_filterMap.2 ⟨q, hq, by simp [hv]⟩

theorem given_ne_none_of_input {j : Nat} {q : String × SymbolId} {n : Int64}
    (hq : c.inputs[j]? = some q) (hn : m.inputs[j]? = some n) : (c.given m).get? q.2 ≠ none := by
  unfold given
  rcases Model.get?_ofList _ q.2 with ⟨w, -, hget⟩ | ⟨hnone, -⟩
  · rw [hget]
    simp
  · refine absurd (List.mem_append_right _ ?_) (hnone (.int n))
    have hzip : (c.inputs.zip m.inputs)[j]? = some (q, n) := List.getElem?_zip_eq_some.2 ⟨hq, hn⟩
    exact List.mem_map.2 ⟨(q, n), List.mem_of_getElem? hzip, rfl⟩

/-- Symbols stand for one variable or one input only, so each has the value that is meant for it. -/
theorem reflects_given (hc : c.Listed) : c.Reflects m (c.given m) where
  initial q hq v hv := by
    obtain ⟨w, hw⟩ := Option.ne_none_iff_exists'.1 (given_ne_none_of_initial hq hv)
    have ho := hc.initial q hq
    rcases cases_of_given hw with ⟨x, hx, hxv⟩ | ⟨j, x, n, hj, -, -⟩
    · have ho' := hc.initial _ hx
      rw [ho] at ho'
      cases ho'
      rw [hv] at hxv
      rw [hw, hxv]
    · have ho' := (hc.inputs j _ hj).1
      rw [ho] at ho'
      cases ho'
  inputs j q n hj hn := by
    obtain ⟨w, hw⟩ := Option.ne_none_iff_exists'.1 (given_ne_none_of_input hj hn)
    have ho := (hc.inputs j q hj).1
    rcases cases_of_given hw with ⟨x, hx, -⟩ | ⟨j', x, n', hj', hn', rfl⟩
    · have ho' := hc.initial _ hx
      rw [ho] at ho'
      cases ho'
    · have ho' := (hc.inputs j' _ hj').1
      rw [ho] at ho'
      cases ho'
      rw [hn] at hn'
      cases hn'
      exact hw

theorem Reflects.fill (h : c.Reflects m f) : c.Reflects m (c.problem.fill f) where
  initial q hq v hv := by
    rw [Problem.get?_fill, h.initial q hq v hv]
    rfl
  inputs j q n hj hn := by
    rw [Problem.get?_fill, h.inputs j q n hj hn]
    rfl

theorem Reflects.of_extends (h : c'.Reflects m f) (he : Extends c c') : c.Reflects m f where
  initial q hq := h.initial q (he.initial.subset hq)
  inputs j q n hj := h.inputs j q n (by
    obtain ⟨new, hnew⟩ := he.inputs
    rw [← hnew, List.getElem?_append_left (List.getElem?_eq_some_iff.1 hj).1, hj])

/-! ## Meeting a condition -/

/-- The machine has what the condition speaks of, and from the values `f` the constraints lead
to `μ`. -/
structure Meets (c : PathCondition) (m : Machine) (f μ : Model) : Prop where
  supplied : c.Supplied m
  leads : c.problem.constraints.foldlM Constraint.enforce f = some μ

theorem Meets.unique (h : c.Meets m f μ) (h' : c.Meets m f μ') : μ = μ' :=
  Option.some.inj (h.leads.symm.trans h'.leads)

theorem Supplied.of_extends (h : c'.Supplied m) (hc : c.Made) (he : Extends c c') : c.Supplied m where
  bound q hq := by
    obtain ⟨v, hv, hk⟩ := h.bound q (he.initial.subset hq)
    rw [he.kindOf (Problem.lt_of_originOf? (hc.listed.initial q hq))] at hk
    exact ⟨v, hv, hk⟩
  enough := Nat.le_trans he.inputs.length_le h.enough

/-- What meets the longer condition meets the shorter one, with the same values of its symbols. -/
theorem Meets.of_extends (h : c'.Meets m f μ') (hc : c.Made) (he : Extends c c') :
    ∃ μ, c.Meets m f μ ∧ ∀ s : Nat, s < c.problem.symbols.length → μ'.get? s = μ.get? s := by
  obtain ⟨new, hnew, ht⟩ := he.constraints
  have hleads := h.leads
  rw [hnew, List.foldlM_append] at hleads
  obtain ⟨μ, hμ, hμ'⟩ := Option.bind_eq_some_iff.1 hleads
  refine ⟨μ, ⟨h.supplied.of_extends hc he, hμ⟩, fun s hs => ?_⟩
  refine get?_of_foldlM_enforce hμ' fun k hk hks => ?_
  exact Nat.not_le_of_lt hs (ht k hk s hks)

theorem Meets.agree (h : c.Meets m f μ) (h' : c'.Meets m f μ') (hc : c.Made) (he : Extends c c')
    {s : Nat} (hs : s < c.problem.symbols.length) : μ'.get? s = μ.get? s := by
  obtain ⟨μ₁, h₁, hagree⟩ := h'.of_extends hc he
  rw [h.unique h₁]
  exact hagree s hs

/-- Symbols that the condition does not have keep their values. -/
theorem Meets.get?_of_le (h : c.Meets m f μ) (hc : c.Made) {s : Nat}
    (hs : c.problem.symbols.length ≤ s) : μ.get? s = f.get? s :=
  get?_of_foldlM_enforce h.leads fun _ hk ht =>
    Nat.not_le_of_lt (Problem.target_lt hc.wellFormed hk ht) hs

theorem Meets.get?_of_mem_free (h : c.Meets m f μ) {s : Nat} (hs : s ∈ c.problem.free) :
    μ.get? s = f.get? s :=
  get?_of_foldlM_enforce h.leads (Problem.mem_free.1 hs).2

/-! ## One step of growth -/

theorem supplied_iff (hc : c.Made) (he : Extends c c') (hi : c'.initial = c.initial)
    (hj : c'.inputs = c.inputs) : c'.Supplied m ↔ c.Supplied m := by
  constructor
  · intro h
    exact h.of_extends hc he
  · rintro ⟨hbound, henough⟩
    refine ⟨fun q hq => ?_, by rw [hj]; exact henough⟩
    rw [hi] at hq
    rw [he.kindOf (Problem.lt_of_originOf? (hc.listed.initial q hq))]
    exact hbound q hq

theorem meets_initialized (hc : c.Made) (hx : c.slots.lookup x = none) :
    (c.initialized x k).Meets m f μ ↔
      c.Meets m f μ ∧ ∃ v, m.env.get? x = some v ∧ v.kind = k := by
  have he : Extends c (c.initialized x k) := (Step.init c x k hx).extends
  have hk : (c.initialized x k).problem.kindOf c.problem.symbols.length = k := by
    simp [initialized, Problem.fresh, Problem.kindOf]
  constructor
  · rintro ⟨hs, hleads⟩
    obtain ⟨v, hv, hvk⟩ := hs.bound (x, c.problem.symbols.length) (by simp [initialized])
    exact ⟨⟨hs.of_extends hc he, hleads⟩, v, hv, hvk.trans hk⟩
  · rintro ⟨⟨hs, hleads⟩, v, hv, hvk⟩
    refine ⟨⟨fun q hq => ?_, hs.enough⟩, hleads⟩
    rcases List.mem_append.1 hq with hq | hq
    · rw [he.kindOf (Problem.lt_of_originOf? (hc.listed.initial q hq))]
      exact hs.bound q hq
    · obtain rfl := List.mem_singleton.1 hq
      exact ⟨v, hv, hvk.trans hk.symm⟩

theorem meets_assert {g : Formula} :
    (c.assert g).Meets m f μ ↔ c.Meets m f μ ∧ g.eval μ = some true := by
  have hleads : (c.assert g).problem.constraints.foldlM Constraint.enforce f = some μ ↔
      c.problem.constraints.foldlM Constraint.enforce f = some μ ∧ g.eval μ = some true := by
    show (c.problem.constraints ++ [Constraint.assert g]).foldlM Constraint.enforce f = some μ ↔ _
    rw [List.foldlM_append]
    constructor
    · intro h
      obtain ⟨μ₁, h₁, h₂⟩ := Option.bind_eq_some_iff.1 h
      simp only [List.foldlM_cons, List.foldlM_nil, Constraint.enforce] at h₂
      split at h₂
      · rename_i hg
        cases h₂
        exact ⟨h₁, hg⟩
      · cases h₂
    · rintro ⟨h₁, hg⟩
      rw [h₁]
      simp [Constraint.enforce, hg]
  constructor
  · rintro ⟨hs, h⟩
    exact ⟨⟨⟨hs.bound, hs.enough⟩, (hleads.1 h).1⟩, (hleads.1 h).2⟩
  · rintro ⟨⟨hs, h⟩, hg⟩
    exact ⟨⟨hs.bound, hs.enough⟩, hleads.2 ⟨h, hg⟩⟩

/-- A condition with one more definition, of a symbol that it makes. -/
theorem meets_define {d : Definition} (hc : c.Made) (he : Extends c c')
    (hi : c'.initial = c.initial) (hj : c'.inputs = c.inputs)
    (hd : c'.problem.constraints = c.problem.constraints ++ [.define c.problem.symbols.length d]) :
    c'.Meets m f μ' ↔ ∃ μ n, c.Meets m f μ ∧ d.eval μ = some n ∧
      μ' = μ.set c.problem.symbols.length (.int n) := by
  constructor
  · rintro ⟨hs, h⟩
    rw [hd, List.foldlM_append] at h
    obtain ⟨μ, h₁, h₂⟩ := Option.bind_eq_some_iff.1 h
    simp only [List.foldlM_cons, List.foldlM_nil, Constraint.enforce] at h₂
    cases hn : d.eval μ with
    | none =>
      rw [hn] at h₂
      cases h₂
    | some n =>
      rw [hn] at h₂
      cases h₂
      exact ⟨μ, n, ⟨(supplied_iff hc he hi hj).1 hs, h₁⟩, hn, rfl⟩
  · rintro ⟨μ, n, ⟨hs, h₁⟩, hn, rfl⟩
    refine ⟨(supplied_iff hc he hi hj).2 hs, ?_⟩
    rw [hd, List.foldlM_append, h₁]
    simp [Constraint.enforce, hn]

theorem meets_received {n : Nat} (hc : c.Made) :
    (c.received x n).Meets m f μ ↔ c.Meets m f μ ∧ c.inputs.length < m.inputs.length := by
  have he : Extends c (c.received x n) := (Step.receive c x n).extends
  have hlen : (c.received x n).inputs.length = c.inputs.length + 1 := by simp [received]
  constructor
  · rintro ⟨hs, hleads⟩
    have henough := hs.enough
    exact ⟨⟨hs.of_extends hc he, hleads⟩, by omega⟩
  · rintro ⟨⟨hs, hleads⟩, hlt⟩
    refine ⟨⟨fun q hq => ?_, by omega⟩, hleads⟩
    rw [he.kindOf (Problem.lt_of_originOf? (hc.listed.initial q hq))]
    exact hs.bound q hq

/-! ## Tracking a machine -/

/-- The machine `r`, on its way from `m`, has the values that the model gives the slots, and as many
inputs less than `m` as the condition has. -/
structure Tracks (c : PathCondition) (m : Machine) (μ : Model) (r : Machine) : Prop where
  met : ∀ x σ, c.slots.lookup x = some σ →
    ∃ v, r.env.get? x = some v ∧ μ.get? σ.symbol = some v ∧ v.kind = σ.kind
  unmet : ∀ x, c.slots.lookup x = none → r.env.get? x = m.env.get? x
  inputs : r.inputs = m.inputs.drop c.inputs.length

theorem Tracks.of_agree (h : c.Tracks m μ r) (hc : c.Made) (hs : c'.slots = c.slots)
    (hj : c'.inputs = c.inputs)
    (hμ : ∀ s : Nat, s < c.problem.symbols.length → μ'.get? s = μ.get? s) : c'.Tracks m μ' r where
  met x σ hσ := by
    rw [hs] at hσ
    obtain ⟨v, hv, hvμ, hk⟩ := h.met x σ hσ
    refine ⟨v, hv, ?_, hk⟩
    rw [hμ σ.symbol (hc.slot_lt hσ), hvμ]
  unmet x hx := h.unmet x (hs ▸ hx)
  inputs := by rw [hj, h.inputs]

theorem Tracks.assert {g : Formula} (h : c.Tracks m μ r) : (c.assert g).Tracks m μ r :=
  ⟨h.met, h.unmet, h.inputs⟩

/-- The model is changed at a new symbol only. -/
theorem get?_set_of_lt {n s : Nat} (hs : s < n) : (μ.set n v).get? s = μ.get? s := by
  have hne : s ≠ n := by omega
  simp [hne]

theorem Tracks.write {c' : PathCondition} {n : Nat} {k : Int64} {r' : Machine} (h : c.Tracks m μ r)
    (hc : c.Made) (hs : ∀ y, c'.slots.lookup y =
      if y = x then some ⟨.int, c.problem.symbols.length, n⟩ else c.slots.lookup y)
    (henv : r'.env = r.env.insert x (.int k)) (hin : r'.inputs = m.inputs.drop c'.inputs.length)
    (hk : μ'.get? c.problem.symbols.length = some (.int k))
    (hμ : ∀ s : Nat, s < c.problem.symbols.length → μ'.get? s = μ.get? s) : c'.Tracks m μ' r' where
  met y σ hσ := by
    rw [hs y] at hσ
    rw [henv, Env.get?_insert]
    split at hσ
    · rename_i hy
      cases hσ
      exact ⟨.int k, if_pos hy, hk, rfl⟩
    · rename_i hy
      obtain ⟨v, hv, hvμ, hkind⟩ := h.met y σ hσ
      refine ⟨v, by rw [if_neg hy, hv], ?_, hkind⟩
      rw [hμ σ.symbol (hc.slot_lt hσ), hvμ]
  unmet y hy := by
    rw [hs y] at hy
    split at hy
    · cases hy
    · rename_i hne
      rw [henv, Env.get?_insert, if_neg hne]
      exact h.unmet y hy
  inputs := hin

/-! ## Outcomes -/

/-- The condition can be met exactly if there is an outcome, and then the model is good for it. -/
structure Yields (c : PathCondition) (m : Machine) (f : Model) {α : Type} (Out : α → Prop)
    (Good : α → Model → Prop) : Prop where
  meets : ∀ {a}, Out a → ∃ μ, c.Meets m f μ ∧ Good a μ
  outcome : ∀ {μ}, c.Meets m f μ → ∃ a, Out a

section
variable {α β : Type} {Out : α → Prop} {Good : α → Model → Prop} {N : α → β → Prop}
  {Out' : β → Prop} {Good' : β → Model → Prop}

/-- There is one outcome, and the condition is met. -/
theorem Yields.only {a : α} (hμ : c.Meets m f μ) (hgood : Good a μ) (hout : ∀ b, Out b ↔ a = b) :
    c.Yields m f Out Good where
  meets {b} hb := by
    obtain rfl := (hout b).1 hb
    exact ⟨μ, hμ, hgood⟩
  outcome _ := ⟨a, (hout a).2 rfl⟩

theorem Yields.ok {ε : Type} {a : α} (hμ : c.Meets m f μ) (hgood : Good a μ) :
    c.Yields m f (fun b => (.ok a : Except ε α) = .ok b) Good :=
  .only hμ hgood fun _ => Iff.of_eq (Except.ok.injEq ..)

/-- One piece of encoding after another. -/
theorem Yields.bind (h : c₁.Yields m f Out Good) (hc : c₁.Made) (he : Extends c₁ c₂)
    (hnext : ∀ a μ, Out a → c₁.Meets m f μ → Good a μ → c₂.Yields m f (N a) Good')
    (hout : ∀ b, Out' b ↔ ∃ a, Out a ∧ N a b) : c₂.Yields m f Out' Good' where
  meets {b} hb := by
    obtain ⟨a, ha, hab⟩ := (hout b).1 hb
    obtain ⟨μ, hμ, hgood⟩ := h.meets ha
    exact (hnext a μ ha hμ hgood).meets hab
  outcome {μ₂} hμ₂ := by
    obtain ⟨μ₁, hμ₁, -⟩ := hμ₂.of_extends hc he
    obtain ⟨a, ha⟩ := h.outcome hμ₁
    obtain ⟨μ, hμ, hgood⟩ := h.meets ha
    obtain ⟨b, hb⟩ := (hnext a μ ha hμ hgood).outcome hμ₂
    exact ⟨b, (hout b).2 ⟨a, ha, hb⟩⟩

/-- The outcomes seen in another way. -/
theorem Yields.imp (h : c.Yields m f Out Good)
    (hmeets : ∀ b, Out' b → ∃ a, Out a ∧ ∀ μ, Good a μ → Good' b μ)
    (hout : ∀ a, Out a → ∃ b, Out' b) : c.Yields m f Out' Good' where
  meets {b} hb := by
    obtain ⟨a, ha, himp⟩ := hmeets b hb
    obtain ⟨μ, hμ, hgood⟩ := h.meets ha
    exact ⟨μ, hμ, himp μ hgood⟩
  outcome hμ := by
    obtain ⟨a, ha⟩ := h.outcome hμ
    exact hout a ha

end

end PathCondition

end Pathwise
