import Pathwise.Proofs.PathCondition.Meaning

/-!
The path condition is exact.

For each form of expression, action and edge, the condition that encoding it leads to can be met exactly
if the machine that is tracked gets through it: a fault, a missing input or a guard that does not hold
shows as a condition that cannot be met. By induction on the path, a condition can be met exactly if the
graph walks along the path (`yields_walk`), and the model at the end has the values that the walk leaves
(`Tracks.get?_of_writes`, `Tracks.get?_of_not_writes`).
-/

namespace Pathwise

namespace PathCondition

variable {c c' c₁ c₂ : PathCondition} {m r : Machine} {f μ μ' : Model} {x : String} {k : Kind}
  {s : SymbolId} {v : Value} {t : Term}

/-! ## Expressions -/

theorem yields_read (hc : c.Made) (h : c.read x k = .ok (s, c')) (hf : c'.Reflects m f)
    (hμ : c.Meets m f μ) (hr : c.Tracks m μ r) :
    c'.Yields m f (fun v => r.env.get? x = some v ∧ v.kind = k)
      fun v μ' => c'.Tracks m μ' r ∧ μ'.get? s = some v := by
  rcases read_eq_ok h with ⟨σ, hσ, rfl, rfl, rfl⟩ | ⟨hnone, rfl, rfl⟩
  · obtain ⟨v, hv, hvμ, hk⟩ := hr.met x σ hσ
    constructor
    · rintro w ⟨hw, -⟩
      rw [hv] at hw
      cases hw
      exact ⟨μ, hμ, hr, hvμ⟩
    · intro _ _
      exact ⟨v, hv, hk⟩
  · have henv := hr.unmet x hnone
    constructor
    · rintro v ⟨hv, rfl⟩
      -- The new symbol has the value that it was given, since no definition sets it.
      have hs : μ.get? c.problem.symbols.length = some v := by
        rw [hμ.get?_of_le hc (Nat.le_refl _)]
        exact hf.initial (x, _) (by simp [initialized]) v (henv ▸ hv)
      refine ⟨μ, (meets_initialized hc hnone).2 ⟨hμ, v, henv ▸ hv, rfl⟩, ⟨?_, ?_, hr.inputs⟩, hs⟩
      · intro y σ hσ
        rw [lookup_initialized] at hσ
        split at hσ
        · rename_i hy
          cases hσ
          exact ⟨v, hy ▸ hv, hs, rfl⟩
        · exact hr.met y σ hσ
      · intro y hy
        rw [lookup_initialized] at hy
        split at hy
        · cases hy
        · exact hr.unmet y hy
    · intro μ' hμ'
      obtain ⟨-, v, hv, hk⟩ := (meets_initialized hc hnone).1 hμ'
      exact ⟨v, by rw [henv, hv], hk⟩

theorem yields_result {d : Definition} (hc : c.Made) (hd : c.Fits d.symbolUses)
    (hμ : c.Meets m f μ) (hr : c.Tracks m μ r) :
    (c.result d).2.Yields m f (fun n => d.eval μ = some n)
      fun n μ' => (c.result d).2.Tracks m μ' r ∧
        (Term.sym c.problem.symbols.length).eval μ' = some n := by
  have hmeets := @meets_define c (c.result d).2 m f
  have he : Extends c (c.result d).2 := (Step.define c d hd).extends
  constructor
  · intro n hn
    refine ⟨_, (hmeets hc he rfl rfl rfl).2 ⟨μ, n, hμ, hn, rfl⟩, ?_, ?_⟩
    · exact hr.of_agree hc rfl rfl fun s hs => get?_set_of_lt hs
    · simp [Term.eval, Model.int?]
  · intro μ' hμ'
    obtain ⟨μ₁, n, hμ₁, hn, -⟩ := (hmeets hc he rfl rfl rfl).1 hμ'
    rw [← hμ.unique hμ₁] at hn
    exact ⟨n, hn⟩

theorem getInt_eq_ok {env : Env} {n : Int64} : env.getInt x = .ok n ↔ env.get? x = some (.int n) := by
  unfold Env.getInt
  split <;> simp_all

theorem getBool_eq_ok {env : Env} {b : Bool} :
    env.getBool x = .ok b ↔ env.get? x = some (.bool b) := by
  unfold Env.getBool
  split <;> simp_all

/-- An operator that has a result has what it requires. -/
theorem eval_requirement {op : ArithOp} {a b n : Int64} {q : Formula} (ht : t.eval μ = some b)
    (hq : requirement? op t = some q) (h : op.apply a b = .ok n) : q.eval μ = some true := by
  have hdiv : op = .div ∨ op = .mod → b ≠ 0 := by
    rintro (rfl | rfl) rfl <;> simp [ArithOp.apply, floorDiv, floorMod] at h
  have hpow : op = .pow → ¬ b < 0 := by
    rintro rfl hb
    simp [ArithOp.apply, power, hb] at h
  have hzero : (Term.const 0).eval μ = some 0 := rfl
  cases op <;> cases hq <;> refine Formula.eval_cmp.2 ⟨b, 0, ht, hzero, ?_⟩
  · simpa [CmpOp.holds] using hdiv (.inl rfl)
  · simpa [CmpOp.holds] using hdiv (.inr rfl)
  · simpa [CmpOp.holds] using hpow rfl

theorem meets_required {op : ArithOp} : (c.required op t).Meets m f μ ↔
    c.Meets m f μ ∧ ∀ q, requirement? op t = some q → q.eval μ = some true := by
  unfold required
  split
  · rename_i q hq
    rw [meets_assert, hq]
    simp
  · rename_i hq
    simp [hq]

theorem Tracks.required {op : ArithOp} (h : c.Tracks m μ r) : (c.required op t).Tracks m μ r := by
  unfold PathCondition.required
  split
  · exact h.assert
  · exact h

theorem yields_operator {op : ArithOp} {ta tb : Term} {a b : Int64} (hc : c.Made)
    (hsa : c.Fits ta.symbolUses) (hsb : c.Fits tb.symbolUses) (hμ : c.Meets m f μ)
    (hr : c.Tracks m μ r) (ha : ta.eval μ = some a) (hb : tb.eval μ = some b) :
    ((c.required op tb).result (.binary op ta tb)).2.Yields m f (fun n => op.apply a b = .ok n)
      fun n μ' => ((c.required op tb).result (.binary op ta tb)).2.Tracks m μ' r ∧
        (Term.sym (c.required op tb).problem.symbols.length).eval μ' = some n := by
  have hg : Grows c [] (c.required op tb) := grows_required hsb
  have hd := hg.extends.fits (fits_binary op hsa hsb)
  have hyields : (c.required op tb).Meets m f μ → _ := fun h =>
    yields_result (hc.grows hg) hd h hr.required
  have heval : ∀ n, (Definition.binary op ta tb).eval μ = some n ↔ op.apply a b = .ok n := by
    simp [Definition.eval_binary, ha, hb]
  constructor
  · intro n hn
    have hreq : (c.required op tb).Meets m f μ :=
      meets_required.2 ⟨hμ, fun q hq => eval_requirement hb hq hn⟩
    exact (hyields hreq).meets ((heval n).2 hn)
  · intro μ' hμ'
    obtain ⟨μ₁, hμ₁, -⟩ := hμ'.of_extends (hc.grows hg) (Step.define _ _ hd).extends
    have hreq : (c.required op tb).Meets m f μ := by
      rw [hμ.unique (meets_required.1 hμ₁).1]
      exact hμ₁
    obtain ⟨n, hn⟩ := (hyields hreq).outcome hμ'
    exact ⟨n, (heval n).1 hn⟩

theorem Meets.term_eval (h : c.Meets m f μ) (h' : c'.Meets m f μ') (hc : c.Made)
    (he : Extends c c') (hs : c.Fits t.symbolUses) : t.eval μ' = t.eval μ :=
  Term.eval_congr fun _ hmem => h.agree h' hc he (hs.lt (t.symbols_eq_map ▸ hmem))

theorem Meets.formula_eval {g : Formula} (h : c.Meets m f μ) (h' : c'.Meets m f μ') (hc : c.Made)
    (he : Extends c c') (hs : c.Fits g.symbolUses) : g.eval μ' = g.eval μ :=
  Formula.eval_congr fun _ hmem => h.agree h' hc he (hs.lt (g.symbols_eq_map ▸ hmem))

theorem yields_arith {a : Arith} (hc : c.Made) (h : c.arith a = .ok (t, c')) (hf : c'.Reflects m f)
    (hμ : c.Meets m f μ) (hr : c.Tracks m μ r) :
    c'.Yields m f (fun n => a.eval r.env = .ok n)
      fun n μ' => c'.Tracks m μ' r ∧ t.eval μ' = some n := by
  induction a generalizing c t c' μ with
  | const k =>
    cases h
    exact .ok hμ ⟨hr, rfl⟩
  | var x =>
    obtain ⟨s, hread, rfl⟩ := arith_var_eq_ok h
    refine (yields_read hc hread hf hμ hr).imp (fun n hn => ?_) fun v hv => ?_
    · refine ⟨.int n, ⟨getInt_eq_ok.1 hn, rfl⟩, fun μ' hgood => ⟨hgood.1, ?_⟩⟩
      exact Model.int?_eq_some.2 hgood.2
    · cases v with
      | int n => exact ⟨n, getInt_eq_ok.2 hv.1⟩
      | bool b => cases hv.2
  | unary op a ih =>
    obtain ⟨ta, c₁, ha, rfl, rfl⟩ := arith_unary_eq_ok h
    obtain ⟨hg, hs⟩ := grows_arith hc ha
    have hd : c₁.Fits (Definition.unary op ta).symbolUses := by
      simpa [Definition.symbolUses, Definition.operands] using hs
    have he : Extends c₁ (c₁.result (.unary op ta)).2 := (Step.define c₁ _ hd).extends
    refine (ih hc ha (hf.of_extends he) hμ hr).bind (hc.grows hg) he
      (fun n μ₁ _ hμ₁ hgood => ?_) fun _ => bind_eq_ok
    have heval : ∀ k, (Definition.unary op ta).eval μ₁ = some k ↔ op.apply n = .ok k := by
      simp [Definition.eval_unary, hgood.2]
    simpa only [heval] using yields_result (hc.grows hg) hd hμ₁ hgood.1
  | binary op a b iha ihb =>
    obtain ⟨ta, c₁, tb, c₂, ha, hb, rfl, rfl⟩ := arith_binary_eq_ok h
    obtain ⟨hga, hsa⟩ := grows_arith hc ha
    have hc₁ := hc.grows hga
    obtain ⟨hgb, hsb⟩ := grows_arith hc₁ hb
    have hc₂ := hc₁.grows hgb
    obtain ⟨hgo, -⟩ := grows_operator op (hgb.extends.fits hsa) hsb
    have hf₂ := hf.of_extends hgo.extends
    refine (iha hc ha (hf₂.of_extends hgb.extends) hμ hr).bind hc₁ (hgb.trans hgo).extends
      (fun i μ₁ _ hμ₁ hgood₁ => ?_) fun _ => bind_eq_ok
    refine (ihb hc₁ hb hf₂ hμ₁ hgood₁.1).bind hc₂ hgo.extends
      (fun j μ₂ _ hμ₂ hgood₂ => ?_) fun _ => bind_eq_ok
    have hi : ta.eval μ₂ = some i := (hμ₁.term_eval hμ₂ hc₁ hgb.extends hsa).trans hgood₁.2
    exact yields_operator hc₂ (hgb.extends.fits hsa) hsb hμ₂ hgood₂.1 hi hgood₂.2

theorem yields_cond {q : Cond} {g : Formula} (hc : c.Made) (h : c.cond q = .ok (g, c'))
    (hf : c'.Reflects m f) (hμ : c.Meets m f μ) (hr : c.Tracks m μ r) :
    c'.Yields m f (fun b => q.eval r.env = .ok b)
      fun b μ' => c'.Tracks m μ' r ∧ g.eval μ' = some b := by
  induction q generalizing c g c' μ with
  | const b =>
    cases h
    exact .ok hμ ⟨hr, rfl⟩
  | var x =>
    obtain ⟨s, hread, rfl⟩ := cond_var_eq_ok h
    refine (yields_read hc hread hf hμ hr).imp (fun b hb => ?_) fun v hv => ?_
    · refine ⟨.bool b, ⟨getBool_eq_ok.1 hb, rfl⟩, fun μ' hgood => ⟨hgood.1, ?_⟩⟩
      rw [Formula.eval]
      exact Model.bool?_eq_some.2 hgood.2
    · cases v with
      | bool b => exact ⟨b, getBool_eq_ok.2 hv.1⟩
      | int n => cases hv.2
  | not q ih =>
    obtain ⟨g₁, hq, rfl⟩ := cond_not_eq_ok h
    refine (ih hc hq hf hμ hr).imp (fun b hb => ?_) fun b hb => ?_
    · obtain ⟨a, ha, hab⟩ := bind_eq_ok.1 hb
      cases hab
      refine ⟨a, ha, fun μ' hgood => ⟨hgood.1, ?_⟩⟩
      rw [Formula.eval_negate, Formula.eval_not, hgood.2]
      rfl
    · exact ⟨!b, bind_eq_ok.2 ⟨b, hb, rfl⟩⟩
  | logic op q q' ihq ihr =>
    obtain ⟨g₁, c₁, g₂, hq, hq', rfl⟩ := cond_logic_eq_ok h
    obtain ⟨hg₁, hs₁⟩ := grows_cond hc hq
    have hc₁ := hc.grows hg₁
    obtain ⟨hg₂, hs₂⟩ := grows_cond hc₁ hq'
    refine (ihq hc hq (hf.of_extends hg₂.extends) hμ hr).bind hc₁ hg₂.extends
      (fun a μ₁ _ hμ₁ hgood₁ => ?_) fun _ => bind_eq_ok
    refine (ihr hc₁ hq' hf hμ₁ hgood₁.1).bind (hc₁.grows hg₂) (.refl c')
      (fun b μ₂ _ hμ₂ hgood₂ => ?_) fun _ => bind_eq_ok
    have ha : g₁.eval μ₂ = some a := (hμ₁.formula_eval hμ₂ hc₁ hg₂.extends hs₁).trans hgood₁.2
    exact .ok hμ₂ ⟨hgood₂.1, Formula.eval_connect _ op ha hgood₂.2⟩
  | cmp op a b =>
    obtain ⟨ta, c₁, tb, ha, hb, rfl⟩ := cond_cmp_eq_ok h
    obtain ⟨hg₁, hs₁⟩ := grows_arith hc ha
    have hc₁ := hc.grows hg₁
    obtain ⟨hg₂, hs₂⟩ := grows_arith hc₁ hb
    refine (yields_arith hc ha (hf.of_extends hg₂.extends) hμ hr).bind hc₁ hg₂.extends
      (fun i μ₁ _ hμ₁ hgood₁ => ?_) fun _ => bind_eq_ok
    refine (yields_arith hc₁ hb hf hμ₁ hgood₁.1).bind (hc₁.grows hg₂) (.refl c')
      (fun j μ₂ _ hμ₂ hgood₂ => ?_) fun _ => bind_eq_ok
    have hi : ta.eval μ₂ = some i := (hμ₁.term_eval hμ₂ hc₁ hg₂.extends hs₁).trans hgood₁.2
    have hcmp : (Formula.cmp op ta tb).eval μ₂ = some (op.holds i j) :=
      Formula.eval_cmp.2 ⟨i, j, hi, hgood₂.2, rfl⟩
    exact .ok hμ₂ ⟨hgood₂.1, hcmp⟩

/-! ## Actions and edges -/

theorem yields_assigned {n : Nat} {i : Int64} (hc : c.Made) (ht : c.Fits t.symbolUses)
    (hμ : c.Meets m f μ) (hr : c.Tracks m μ r) (hi : t.eval μ = some i) :
    (c.assigned x n t).Yields m f
      (fun r' => (.ok { r with env := r.env.insert x (.int i) } : Except Fault Machine) = .ok r')
      fun r' μ' => (c.assigned x n t).Tracks m μ' r' := by
  have he : Extends c (c.assigned x n t) := (Step.assign c x n t ht).extends
  refine .ok ((meets_define hc he rfl rfl rfl).2 ⟨μ, i, hμ, hi, rfl⟩) ?_
  exact hr.write hc (fun y => lookup_assigned c x y n t) rfl hr.inputs (by simp)
    fun s hs => get?_set_of_lt hs

theorem perform_input_eq_ok {r' : Machine} : (Action.input x).perform r = .ok r' ↔
    ∃ i rest, r.inputs = i :: rest ∧
      r' = { r with env := r.env.insert x (.int i), inputs := rest } := by
  simp only [Action.perform]
  split
  · rename_i hin
    simp [hin]
  · rename_i i rest hin
    simp only [Except.ok.injEq, hin, List.cons.injEq]
    constructor
    · rintro rfl
      exact ⟨i, rest, ⟨rfl, rfl⟩, rfl⟩
    · rintro ⟨_, _, ⟨rfl, rfl⟩, rfl⟩
      rfl

theorem yields_received {n : Nat} (hc : c.Made) (hf : (c.received x n).Reflects m f)
    (hμ : c.Meets m f μ) (hr : c.Tracks m μ r) :
    (c.received x n).Yields m f (fun r' => (Action.input x).perform r = .ok r')
      fun r' μ' => (c.received x n).Tracks m μ' r' := by
  have hin := hr.inputs
  constructor
  · intro r' hr'
    obtain ⟨i, rest, hi, rfl⟩ := perform_input_eq_ok.1 hr'
    rw [hi] at hin
    have hlt : c.inputs.length < m.inputs.length := by
      have hlen := congrArg List.length hin
      simp only [List.length_cons, List.length_drop] at hlen
      omega
    rw [List.drop_eq_getElem_cons hlt] at hin
    obtain ⟨hhead, hrest⟩ := List.cons.inj hin
    -- As for an initial value, no definition sets the new symbol.
    have hs : μ.get? c.problem.symbols.length = some (.int i) := by
      rw [hμ.get?_of_le hc (Nat.le_refl _)]
      refine hf.inputs c.inputs.length (x, _) i (by simp [received]) ?_
      rw [List.getElem?_eq_getElem hlt, hhead]
    refine ⟨μ, (meets_received hc).2 ⟨hμ, hlt⟩, ?_⟩
    refine hr.write hc (fun y => lookup_received c x y n) rfl ?_ hs fun _ _ => rfl
    simpa [received] using hrest
  · intro μ' hμ'
    obtain ⟨-, hlt⟩ := (meets_received hc).1 hμ'
    rw [List.drop_eq_getElem_cons hlt] at hin
    exact ⟨_, perform_input_eq_ok.2 ⟨_, _, hin, rfl⟩⟩

theorem yields_action {a : Action} (hc : c.Made) (h : c.action a = .ok c') (hf : c'.Reflects m f)
    (hμ : c.Meets m f μ) (hr : c.Tracks m μ r) :
    c'.Yields m f (fun r' => a.perform r = .ok r') fun r' μ' => c'.Tracks m μ' r' := by
  cases a with
  | skip =>
    cases h
    exact .ok hμ hr
  | assign x e =>
    obtain ⟨t, c₁, n, he, rfl⟩ := action_assign_eq_ok h
    obtain ⟨hg, hs⟩ := grows_arith hc he
    have hc₁ := hc.grows hg
    have hext : Extends c₁ (c₁.assigned x n t) := (Step.assign c₁ x n t hs).extends
    refine (yields_arith hc he (hf.of_extends hext) hμ hr).bind hc₁ hext
      (fun i μ₁ _ hμ₁ hgood => ?_) fun _ => bind_eq_ok
    exact yields_assigned hc₁ hs hμ₁ hgood.1 hgood.2
  | input x =>
    obtain ⟨n, rfl⟩ := action_input_eq_ok h
    exact yields_received hc hf hμ hr
  | print e =>
    obtain ⟨t, he⟩ := action_print_eq_ok h
    obtain ⟨hg, -⟩ := grows_arith hc he
    refine (yields_arith hc he hf hμ hr).bind (hc.grows hg) (.refl c')
      (fun i μ₁ _ hμ₁ hgood => ?_) fun _ => bind_eq_ok
    have hr' : c'.Tracks m μ₁ { r with outputs := r.outputs.push i } :=
      ⟨hgood.1.met, hgood.1.unmet, hgood.1.inputs⟩
    exact .only hμ₁ hr' fun _ => Iff.of_eq (Except.ok.injEq ..)

/-- A condition with an assertion more can be met only if the assertion is true. -/
theorem yields_assert {g : Formula} {b : Bool} (hμ : c.Meets m f μ) (hg : g.eval μ = some b) :
    (c.assert g).Yields m f (fun _ : Unit => b = true) fun _ μ' => c.Meets m f μ' where
  meets {_} hb := by
    subst hb
    exact ⟨μ, meets_assert.2 ⟨hμ, hg⟩, hμ⟩
  outcome {μ'} hμ' := by
    obtain ⟨hμ₁, htrue⟩ := meets_assert.1 hμ'
    rw [← hμ.unique hμ₁, hg] at htrue
    exact ⟨(), Option.some.inj htrue⟩

theorem yields_edge {e : Edge} (hc : c.Made) (h : c.edge e = .ok c') (hf : c'.Reflects m f)
    (hμ : c.Meets m f μ) (hr : c.Tracks m μ r) :
    c'.Yields m f (fun r' => e.guard.eval r.env = .ok true ∧ e.action.perform r = .ok r')
      fun r' μ' => c'.Tracks m μ' r' := by
  rcases edge_eq_ok h with ⟨htrue, ha⟩ | ⟨g, c₁, hg, ha⟩
  · have hguard : e.guard.eval r.env = .ok true := by
      rw [htrue]
      rfl
    refine (yields_action hc ha hf hμ hr).imp (fun r' hr' => ?_) fun r' hr' => ?_
    · exact ⟨r', hr'.2, fun _ => id⟩
    · exact ⟨r', hguard, hr'⟩
  · obtain ⟨hg₁, hs₁⟩ := grows_cond hc hg
    have hc₁ := hc.grows hg₁
    have hg₂ : Grows c₁ [] (c₁.assert g) := (Step.check c₁ g hs₁).grows
    have hc₂ := hc₁.grows hg₂
    have hg₃ := grows_action hc₂ ha
    have hf₁ := hf.of_extends (hg₂.trans hg₃).extends
    refine (yields_cond hc hg hf₁ hμ hr).bind (N := fun b r' => b = true ∧ e.action.perform r = .ok r')
      hc₁ (hg₂.trans hg₃).extends (fun b μ₁ _ hμ₁ hgood => ?_) (by simp)
    refine (yields_assert hμ₁ hgood.2).bind (N := fun _ r' => e.action.perform r = .ok r')
      hc₂ hg₃.extends (fun _ μ₂ _ hμ₂ hgood₂ => ?_) (by simp)
    rw [← hμ₁.unique hgood₂] at hμ₂
    exact yields_action hc₂ ha hf hμ₂ hgood.1.assert

/-! ## Paths -/

theorem eval_disj_negate {g g' : Formula} {b : Bool} (hg : g.eval μ = some b)
    (hg' : g'.eval μ = some !b) : (Formula.disj [g, g']).eval μ = some true := by
  refine (Formula.eval_connect μ .or hg hg').trans ?_
  cases b <;> rfl

/-- Two ways that lead to the same node are open together wherever the condition has a value. -/
theorem yields_either {q : Cond} {g₁ g₂ : Formula} (hc : c.Made) (h₁ : c.cond q = .ok (g₁, c₁))
    (h₂ : c₁.cond q.negate = .ok (g₂, c₂)) (hf : c₂.Reflects m f) (hμ : c.Meets m f μ)
    (hr : c.Tracks m μ r) :
    (c₂.assert (.disj [g₁, g₂])).Yields m f (fun r' => r' = r ∧ ∃ b, q.eval r.env = .ok b)
      fun r' μ' => (c₂.assert (.disj [g₁, g₂])).Tracks m μ' r' := by
  obtain ⟨hg₁, hs₁⟩ := grows_cond hc h₁
  have hc₁ := hc.grows hg₁
  obtain ⟨hg₂, hs₂⟩ := grows_cond hc₁ h₂
  have hc₂ := hc₁.grows hg₂
  have hfits : c₂.Fits (Formula.disj [g₁, g₂]).symbolUses :=
    fits_disj (hg₂.extends.fits hs₁) hs₂
  have hg₃ : Grows c₂ [] (c₂.assert (.disj [g₁, g₂])) := (Step.check c₂ _ hfits).grows
  refine (yields_cond hc h₁ (hf.of_extends hg₂.extends) hμ hr).bind (N := fun _ r' => r' = r) hc₁
    (hg₂.trans hg₃).extends (fun b μ₁ hb hμ₁ hgood₁ => ?_) fun r' => ?_
  · refine (yields_cond hc₁ h₂ hf hμ₁ hgood₁.1).bind (N := fun _ r' => r' = r) hc₂ hg₃.extends
      (fun b' μ₂ hb' hμ₂ hgood₂ => ?_) fun r' => ?_
    · have hbb : b' = !b := by
        rw [eval_negate_eq_ok, hb] at hb'
        cases hb'
        simp
      subst hbb
      have hb₂ : g₁.eval μ₂ = some b := (hμ₁.formula_eval hμ₂ hc₁ hg₂.extends hs₁).trans hgood₁.2
      have htrue := eval_disj_negate hb₂ hgood₂.2
      exact .only (meets_assert.2 ⟨hμ₂, htrue⟩) hgood₂.1.assert fun _ => eq_comm
    · have hneg : q.negate.eval r.env = .ok !b := by
        rw [eval_negate_eq_ok, hb, Bool.not_not]
      exact ⟨fun h => ⟨_, hneg, h⟩, fun ⟨_, _, h⟩ => h⟩
  · exact ⟨fun ⟨h, b, hb⟩ => ⟨b, hb, h⟩, fun ⟨b, hb, h⟩ => ⟨h, b, hb⟩⟩

theorem yields_step {g : FlowGraph} {a : Arc} (hg : ∀ n, Fan n (g.outgoing n)) (hc : c.Made)
    (h : step g c a = .ok c') (hf : c'.Reflects m f) (hμ : c.Meets m f μ) (hr : c.Tracks m μ r) :
    c'.Yields m f (fun r' => g.step a.source r = .ok (a.target, r'))
      fun r' μ' => c'.Tracks m μ' r' := by
  rcases step_eq_ok hg h with ⟨e, -, hedge, hstep⟩ | ⟨q, g₁, c₁, g₂, c₂, -, h₁, h₂, rfl, hstep⟩
  · simp only [hstep]
    exact yields_edge hc hedge hf hμ hr
  · simp only [hstep]
    exact yields_either hc h₁ h₂ ⟨hf.initial, hf.inputs⟩ hμ hr

theorem arcs_cons {p : Path} {a b : Node} (h : p.head? = some b) :
    Path.arcs (a :: p) = ⟨a, b⟩ :: Path.arcs p := by
  cases p with
  | nil => cases h
  | cons b' p =>
    cases h
    rfl

/-- The condition of a path can be met exactly if the graph walks along it. -/
theorem yields_walk {g : FlowGraph} {w : Path} {n k : Node} (hg : ∀ n, Fan n (g.outgoing n))
    (hn : (w ++ [k]).head? = some n) (hc : c.Made)
    (h : (Path.arcs (w ++ [k])).foldlM (step g) c = .ok c') (hf : c'.Reflects m f)
    (hμ : c.Meets m f μ) (hr : c.Tracks m μ r) :
    c'.Yields m f (fun r' => g.Walk n r w k r') fun r' μ' => c'.Tracks m μ' r' := by
  induction w generalizing c n r μ with
  | nil =>
    cases hn
    cases h
    refine .only hμ hr fun r' => ⟨fun hw => ?_, ?_⟩
    · cases hw
      rfl
    · rintro rfl
      exact .refl k r
  | cons a w ih =>
    cases hn
    obtain ⟨b, hb⟩ : ∃ b, (w ++ [k]).head? = some b := by
      cases w with
      | nil => exact ⟨k, rfl⟩
      | cons b w => exact ⟨b, rfl⟩
    rw [List.cons_append, arcs_cons hb, List.foldlM_cons] at h
    obtain ⟨c₁, hstep, hrest⟩ := bind_eq_ok.1 h
    have hg₁ := grows_step hg hc hstep
    have hc₁ := hc.grows hg₁
    have he := (grows_arcs hg hc₁ hrest).extends
    refine (yields_step hg hc hstep (hf.of_extends he) hμ hr).bind hc₁ he
      (fun r₁ μ₁ _ hμ₁ hgood => ih hb hc₁ hrest hμ₁ hgood) fun r' => ?_
    constructor
    · rintro (_ | ⟨hs, hw⟩)
      have hn' := hw.head?_eq
      rw [hb] at hn'
      cases hn'
      exact ⟨_, hs, hw⟩
    · rintro ⟨r₁, hs, hw⟩
      exact .step hs hw

theorem yields_pathCondition {g : FlowGraph} {w : Path} (hg : ∀ n, Fan n (g.outgoing n))
    (h : g.pathCondition (w ++ [.exit]) = .ok c) (m : Machine) :
    c.Yields m (c.problem.fill (c.given m)) (fun r => g.Walk .entry m w .exit r)
      fun r μ => c.Tracks m μ r := by
  obtain ⟨hhead, -, harcs⟩ := pathCondition_eq_ok h
  have hc : c.Made := ⟨_, grows_pathCondition hg h⟩
  have hstart : PathCondition.Meets {} m (c.problem.fill (c.given m)) (c.problem.fill (c.given m)) :=
    ⟨⟨by simp, by simp⟩, rfl⟩
  exact yields_walk hg hhead ⟨[], .refl⟩ harcs (reflects_given hc.listed).fill hstart
    ⟨by simp, by simp, by simp⟩

theorem exists_of_pathCondition {g : FlowGraph} {p : Path} (h : g.pathCondition p = .ok c) :
    ∃ w, p = w ++ [.exit] :=
  List.getLast?_eq_some_iff.1 (pathCondition_eq_ok h).2.1

theorem meets_given_iff : c.Meets m (c.problem.fill (c.given m)) μ ↔
    c.Supplied m ∧ c.problem.complete (c.given m) = some μ :=
  ⟨fun h => ⟨h.supplied, h.leads⟩, fun h => ⟨h.1, h.2⟩⟩

/-! ## What is left at the end -/

theorem Tracks.get?_of_writes (hr : c.Tracks m μ r) (hc : c.Made)
    (hx : ∃ s, c.problem.Writes x s) :
    ∃ s v, c.problem.LastWrite x s ∧ μ.get? s = some v ∧ r.env.get? x = some v := by
  obtain ⟨s, hs⟩ := hx
  have hlatest := hc.latest x
  unfold Latest at hlatest
  cases hl : c.slots.lookup x with
  | none =>
    rw [hl] at hlatest
    exact absurd hs (hlatest s)
  | some σ =>
    rw [hl] at hlatest
    obtain ⟨v, hv, hvμ, -⟩ := hr.met x σ hl
    rcases hlatest with hlast | ⟨-, hnone⟩
    · exact ⟨σ.symbol, v, hlast, hvμ, hv⟩
    · exact absurd hs (hnone s)

theorem Tracks.get?_of_not_writes (hr : c.Tracks m μ r) (hc : c.Made) (hf : c.Reflects m f)
    (hμ : c.Meets m f μ) (hx : ¬ ∃ s, c.problem.Writes x s) : r.env.get? x = m.env.get? x := by
  have hlatest := hc.latest x
  unfold Latest at hlatest
  cases hl : c.slots.lookup x with
  | none => exact hr.unmet x hl
  | some σ =>
    rw [hl] at hlatest
    obtain ⟨v, hv, hvμ, -⟩ := hr.met x σ hl
    rcases hlatest with ⟨hwrites, -⟩ | ⟨hinit, -⟩
    · exact absurd ⟨σ.symbol, hwrites⟩ hx
    · -- The symbol is free, so it still has the initial value of `x`.
      obtain ⟨u, hu, -⟩ := hμ.supplied.bound _ hinit
      have hfree : σ.symbol ∈ c.problem.free :=
        hc.mem_free_iff.2 (.inl (List.mem_map.2 ⟨_, hinit, rfl⟩))
      rw [hμ.get?_of_mem_free hfree, hf.initial _ hinit u hu] at hvμ
      rw [hv, hu, hvμ]

end PathCondition

open PathCondition

/-- The condition of a path is exact: with enough steps, a machine runs along the path exactly if it has
what the condition speaks of and the values that it gives can be completed. The completed model then
tells how the run ends: a variable written on the path has the value of its last symbol, any other one
is as it was, and as many inputs have been read as the condition lists. -/
theorem pathCondition_exact {prog : Program} {g : FlowGraph} (hg : FlowGraph.ofProgram prog = .ok g)
    {p : Path} {c : PathCondition} (hc : g.pathCondition p = .ok c) (m : Machine) {limit : Nat}
    (hl : p.length - 1 ≤ limit) :
    ((∃ r, g.run limit m = ⟨r, .ok p⟩) ↔
      c.Supplied m ∧ ∃ μ, c.problem.complete (c.given m) = some μ) ∧
    ∀ r μ, g.run limit m = ⟨r, .ok p⟩ → c.problem.complete (c.given m) = some μ →
      (∀ x ∈ g.written p, ∃ s v, c.problem.LastWrite x s ∧ μ.get? s = some v ∧
        r.env.get? x = some v) ∧
      (∀ x, x ∉ g.written p → r.env.get? x = m.env.get? x) ∧
      c.inputs.length ≤ m.inputs.length ∧ r.inputs = m.inputs.drop c.inputs.length := by
  obtain ⟨w, rfl⟩ := exists_of_pathCondition hc
  have hfan := fan_outgoing hg
  have hgrows := grows_pathCondition hfan hc
  have hmade : c.Made := ⟨_, hgrows⟩
  have hyields := yields_pathCondition hfan hc m
  have hwalk : ∀ r, g.run limit m = ⟨r, .ok (w ++ [.exit])⟩ ↔ g.Walk .entry m w .exit r := fun r =>
    FlowGraph.run_eq_ok_iff (outgoing_exit hg) (by simpa using hl)
  simp only [hwalk]
  constructor
  · constructor
    · rintro ⟨r, hr⟩
      obtain ⟨μ, hμ, -⟩ := hyields.meets hr
      exact ⟨(meets_given_iff.1 hμ).1, μ, (meets_given_iff.1 hμ).2⟩
    · rintro ⟨hs, μ, hμ⟩
      exact hyields.outcome (meets_given_iff.2 ⟨hs, hμ⟩)
  · intro r μ hr hμ
    obtain ⟨μ', hmeets, htracks⟩ := hyields.meets hr
    obtain rfl : μ' = μ := Option.some.inj ((meets_given_iff.1 hmeets).2.symm.trans hμ)
    refine ⟨fun x hx => ?_, fun x hx => ?_, hmeets.supplied.enough, htracks.inputs⟩
    · exact htracks.get?_of_writes hmade (hgrows.exists_writes_iff_mem.2 hx)
    · exact htracks.get?_of_not_writes hmade (reflects_given hmade.listed).fill hmeets
        fun hw => hx (hgrows.exists_writes_iff_mem.1 hw)

/-- Divide ten by `d` if the flag is set, then read `d` anew. -/
def ratio : Program :=
  .seq (.branch 1 (.var "flag") (.assign 2 "y" (.binary .div (.const 10) (.var "d"))) .skip)
    (.input 3 "d")

def ratioPath : Path := [.entry, .point 1, .point 2, .point 3, .exit]

def ratioStart : Machine :=
  { env := .ofList [("flag", .bool true), ("d", .int 2)], inputs := [4, 9] }

theorem pathCondition_exact_ratio : ∃ g c μ s, FlowGraph.ofProgram ratio = .ok g ∧
    g.pathCondition ratioPath = .ok c ∧ ratioPath.length - 1 ≤ 4 ∧ c.Supplied ratioStart ∧
    c.problem.complete (c.given ratioStart) = some μ ∧
    c.problem.LastWrite "y" s ∧ μ.get? s = some (.int 5) := by
  have hg : FlowGraph.ofProgram ratio = .ok (FlowGraph.layOut ratio) :=
    ofProgram_of_nodup (by decide)
  have hl : ratioPath.length - 1 ≤ 4 := by decide
  obtain ⟨c, hc⟩ : ∃ c, (FlowGraph.layOut ratio).pathCondition ratioPath = .ok c := ⟨_, by rfl⟩
  obtain ⟨r, hr⟩ : ∃ r, (FlowGraph.layOut ratio).run 4 ratioStart = ⟨r, .ok ratioPath⟩ :=
    ⟨_, by rfl⟩
  obtain ⟨hiff, hend⟩ := pathCondition_exact hg hc ratioStart hl
  obtain ⟨hs, μ, hμ⟩ := hiff.1 ⟨r, hr⟩
  obtain ⟨s, v, hlast, hv, hy⟩ := (hend r μ hr hμ).1 "y" (by decide +kernel)
  have hfive : ((FlowGraph.layOut ratio).run 4 ratioStart).machine.env.get? "y" = some (.int 5) := by
    decide +kernel
  rw [hr, hy] at hfive
  exact ⟨_, c, μ, s, hg, hc, hl, hs, hμ, hlast, hv.trans hfive⟩

end Pathwise
