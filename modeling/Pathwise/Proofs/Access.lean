import Pathwise.Proofs.DataFlow
import Pathwise.Proofs.Walk

/-!
What a node reads decides its step, and what it writes is all that the step changes.

Evaluation asks for the variables that occur and for no others, in the order in which they occur, so
environments that agree on them have the same value or the same fault (`Arith.eval_congr`,
`Cond.eval_congr`). From there the step of a node is followed in two environments side by side: the guards
of its edges in order, and the action of the edge that is taken.
-/

namespace Pathwise

/-! ## Expressions -/

theorem Env.getInt_congr {env env' : Env} {x : String} (h : env.get? x = env'.get? x) :
    env.getInt x = env'.getInt x := by
  simp only [getInt, h]

theorem Env.getBool_congr {env env' : Env} {x : String} (h : env.get? x = env'.get? x) :
    env.getBool x = env'.getBool x := by
  simp only [getBool, h]

variable {env env' : Env}

theorem Arith.eval_congr {a : Arith} (h : ∀ x ∈ a.occurrences, env.get? x = env'.get? x) :
    a.eval env = a.eval env' := by
  induction a with
  | const n => rfl
  | var x => exact Env.getInt_congr (h x (by simp [occurrences]))
  | unary op a ih => simp only [eval, ih h]
  | binary op a b iha ihb =>
    simp only [occurrences, List.forall_mem_append] at h
    simp only [eval, iha h.1, ihb h.2]

theorem Cond.eval_congr {c : Cond} (h : ∀ x ∈ c.occurrences, env.get? x = env'.get? x) :
    c.eval env = c.eval env' := by
  induction c with
  | const b => rfl
  | var x => exact Env.getBool_congr (h x (by simp [occurrences]))
  | not c ih => simp only [eval, ih h]
  | logic op a b iha ihb =>
    simp only [occurrences, List.forall_mem_append] at h
    simp only [eval, iha h.1, ihb h.2]
  | cmp op a b =>
    simp only [occurrences, List.forall_mem_append] at h
    simp only [eval, Arith.eval_congr h.1, Arith.eval_congr h.2]

/-! ## Actions -/

/-- From `m` and `m'` a step leads to `r` and `r'`: inputs and outputs come out the same, the variables
`ws` are set to the same values, and every other variable is as it was before. -/
structure Machine.SideBySide (ws : List String) (m m' r r' : Machine) : Prop where
  inputs : r.inputs = r'.inputs
  outputs : r.outputs = r'.outputs
  kept : ∀ x ∉ ws, r.env.get? x = m.env.get? x ∧ r'.env.get? x = m'.env.get? x
  set : ∀ x ∈ ws, ∃ v, r.env.get? x = some v ∧ r'.env.get? x = some v

variable {m m' : Machine}

theorem Machine.SideBySide.of_mem_iff {ws vs : List String} {r r' : Machine}
    (h : SideBySide ws m m' r r') (hmem : ∀ x, x ∈ vs ↔ x ∈ ws) : SideBySide vs m m' r r' where
  inputs := h.inputs
  outputs := h.outputs
  kept x hx := h.kept x fun hw => hx ((hmem x).2 hw)
  set x hx := h.set x ((hmem x).1 hx)

/-- An action that sets `x` to the same value on both sides. -/
theorem Machine.SideBySide.insert {x : String} {v : Value} {inputs : List Int64}
    {outputs : Array Int64} :
    SideBySide [x] m m' ⟨m.env.insert x v, inputs, outputs⟩ ⟨m'.env.insert x v, inputs, outputs⟩ where
  inputs := rfl
  outputs := rfl
  kept y hy := by
    have hne : y ≠ x := by simpa using hy
    simp [hne]
  set y hy := by
    obtain rfl := List.mem_singleton.1 hy
    exact ⟨v, by simp, by simp⟩

theorem perform_sideBySide (a : Action) (hin : m.inputs = m'.inputs) (hout : m.outputs = m'.outputs)
    (h : ∀ x ∈ a.occurrences, m.env.get? x = m'.env.get? x) :
    (∃ f, a.perform m = .error f ∧ a.perform m' = .error f) ∨
      ∃ r r', a.perform m = .ok r ∧ a.perform m' = .ok r' ∧
        Machine.SideBySide a.defined?.toList m m' r r' := by
  cases a with
  | skip => exact .inr ⟨m, m', rfl, rfl, hin, hout, fun x _ => ⟨rfl, rfl⟩, by simp [Action.defined?]⟩
  | assign x e =>
    have he : e.eval m.env = e.eval m'.env := Arith.eval_congr h
    simp only [Action.perform, ← he]
    cases e.eval m.env with
    | error f => exact .inl ⟨f, rfl, rfl⟩
    | ok n =>
      refine .inr ⟨_, _, rfl, rfl, ?_⟩
      rw [hin, hout]
      exact .insert
  | input x =>
    simp only [Action.perform, ← hin]
    cases m.inputs with
    | nil => exact .inl ⟨.inputExhausted x, rfl, rfl⟩
    | cons n rest =>
      refine .inr ⟨_, _, rfl, rfl, ?_⟩
      rw [hout]
      exact .insert
  | print e =>
    have he : e.eval m.env = e.eval m'.env := Arith.eval_congr h
    simp only [Action.perform, ← he]
    cases e.eval m.env with
    | error f => exact .inl ⟨f, rfl, rfl⟩
    | ok n =>
      refine .inr ⟨_, _, rfl, rfl, hin, ?_, fun x _ => ⟨rfl, rfl⟩, by simp [Action.defined?]⟩
      exact congrArg (·.push n) hout

/-! ## Edges -/

namespace FlowGraph

variable {g : FlowGraph} {n : Node} {es : List Edge} {e : Edge}

theorem firstEnabled_congr (h : ∀ e ∈ es, ∀ x ∈ e.guard.occurrences, env.get? x = env'.get? x) :
    firstEnabled env es = firstEnabled env' es := by
  induction es with
  | nil => rfl
  | cons e es ih =>
    obtain ⟨he, hes⟩ := List.forall_mem_cons.1 h
    simp only [firstEnabled, Cond.eval_congr he, ih hes]

theorem mem_of_firstEnabled (h : firstEnabled env es = .ok (some e)) : e ∈ es := by
  induction es with
  | nil => cases h
  | cons e' es ih =>
    rw [firstEnabled] at h
    cases hb : e'.guard.eval env with
    | error f =>
      rw [hb] at h
      cases h
    | ok b =>
      rw [hb] at h
      cases b with
      | true =>
        cases h
        exact List.mem_cons_self
      | false => exact List.mem_cons_of_mem e' (ih h)

/-- Of the edges of a fan one is open. -/
theorem firstEnabled_ne_none (h : Fan n es) (hne : es ≠ []) : firstEnabled env es ≠ .ok none := by
  cases h with
  | nil => exact absurd rfl hne
  | straight a k => intro h; cases h
  | fork c w₁ w₂ yes no =>
    intro h
    simp only [firstEnabled, eval_negate] at h
    cases hc : c.eval env with
    | error f =>
      rw [hc] at h
      cases h
    | ok b =>
      rw [hc] at h
      cases b <;> cases h

/-- The action of the edge that is taken decides how the step ends. -/
theorem step_of_firstEnabled (h : firstEnabled m.env (g.outgoing n) = .ok (some e)) :
    g.step n m = match e.action.perform m with
      | .error f => .error (.fault n f)
      | .ok r => .ok (e.target, r) := by
  cases hr : e.action.perform m with
  | error f => simp [step, h, hr]
  | ok r => simp [step, h, hr]

end FlowGraph

open FlowGraph

/-! ## Nodes -/

/-- Every edge of a fan writes what all of them write. -/
theorem Fan.defined?_iff {n : Node} {es : List Edge} {e : Edge} {x : String} (h : Fan n es)
    (he : e ∈ es) :
    (∃ e' ∈ es, e'.action.defined? = some x) ↔ e.action.defined? = some x := by
  cases h with
  | nil => cases he
  | straight a k =>
    obtain rfl := List.mem_singleton.1 he
    simp
  | fork c w₁ w₂ yes no =>
    simp only [List.mem_cons, List.not_mem_nil, or_false] at he
    rcases he with rfl | rfl <;> simp [Action.defined?]

variable {p : Program} {g : FlowGraph} {n : Node}

theorem outgoing_ne_nil (hg : FlowGraph.ofProgram p = .ok g) (hn : n ∈ g.nodes) (hexit : n ≠ .exit) :
    g.outgoing n ≠ [] := by
  obtain ⟨w, hw⟩ := (mirrors_ofProgram hg).reaches n hn
  obtain ⟨k, hk, -⟩ := hw.uncons hexit
  obtain ⟨e, he, -⟩ := mem_successors.1 hk
  exact List.ne_nil_of_mem he

/-- One step from a node, in two environments that agree on the variables that the node reads, with the
same inputs to come and the same outputs so far. It fails with the same fault in both, or it leads to the
same node in both, with the same inputs and outputs; then the variables that the node writes have the
same values in both, and each environment keeps the values of the others. -/
theorem step_sideBySide (hg : FlowGraph.ofProgram p = .ok g) (hn : n ∈ g.nodes) (hexit : n ≠ .exit)
    (m m' : Machine) (hin : m.inputs = m'.inputs) (hout : m.outputs = m'.outputs)
    (hrefs : ∀ x ∈ g.refs n, m.env.get? x = m'.env.get? x) :
    (∃ f, g.step n m = .error (.fault n f) ∧ g.step n m' = .error (.fault n f)) ∨
      ∃ k r r', g.step n m = .ok (k, r) ∧ g.step n m' = .ok (k, r') ∧
        Machine.SideBySide (g.defs n) m m' r r' := by
  have hfan := fan_outgoing hg n
  have hguards : firstEnabled m'.env (g.outgoing n) = firstEnabled m.env (g.outgoing n) :=
    (firstEnabled_congr fun e he x hx => hrefs x (mem_refs.2 ⟨e, he, .inl hx⟩)).symm
  cases hfirst : firstEnabled m.env (g.outgoing n) with
  | error f =>
    rw [hfirst] at hguards
    exact .inl ⟨f, by rw [step, hfirst], by rw [step, hguards]⟩
  | ok taken =>
    rw [hfirst] at hguards
    cases taken with
    | none => exact absurd hfirst (firstEnabled_ne_none hfan (outgoing_ne_nil hg hn hexit))
    | some e =>
      have he := mem_of_firstEnabled hfirst
      have hdefs : ∀ x, x ∈ g.defs n ↔ x ∈ e.action.defined?.toList := by
        intro x
        rw [mem_defs, hfan.defined?_iff he, Option.mem_toList]
      rw [step_of_firstEnabled hfirst, step_of_firstEnabled hguards]
      rcases perform_sideBySide e.action hin hout fun x hx => hrefs x (mem_refs.2 ⟨e, he, .inr hx⟩)
        with ⟨f, hf, hf'⟩ | ⟨r, r', hr, hr', hside⟩
      · exact .inl ⟨f, by rw [hf], by rw [hf']⟩
      · exact .inr ⟨e.target, r, r', by rw [hr], by rw [hr'], hside.of_mem_iff hdefs⟩

/-- A sum is divided into parts. -/
def division : Program :=
  .assign 1 "share" (.binary .div (.var "sum") (.var "parts"))

/-- Whatever else is bound, and to what, the share comes out the same. -/
theorem step_sideBySide_division : ∃ g, FlowGraph.ofProgram division = .ok g ∧
    g.refs (.point 1) = ["parts", "sum"] ∧ ∃ k r r',
      g.step (.point 1) { env := .ofList [("sum", .int 7), ("parts", .int 2), ("rest", .int 5)] } =
        .ok (k, r) ∧
      g.step (.point 1) { env := .ofList [("sum", .int 7), ("parts", .int 2), ("share", .bool true)] } =
        .ok (k, r') ∧
      (∃ v, r.env.get? "share" = some v ∧ r'.env.get? "share" = some v) ∧
      r.env.get? "rest" = some (.int 5) ∧ r'.env.get? "rest" = none := by
  have hg : FlowGraph.ofProgram division = .ok (FlowGraph.layOut division) :=
    ofProgram_of_nodup (by decide)
  have hreads : (FlowGraph.layOut division).refs (.point 1) = ["parts", "sum"] := by decide +kernel
  have hwrites : (FlowGraph.layOut division).defs (.point 1) = ["share"] := by decide +kernel
  have hstep := step_sideBySide hg (n := .point 1) (by decide) (by decide)
    { env := .ofList [("sum", .int 7), ("parts", .int 2), ("rest", .int 5)] }
    { env := .ofList [("sum", .int 7), ("parts", .int 2), ("share", .bool true)] }
    rfl rfl (by rw [hreads]; decide)
  refine ⟨_, hg, hreads, ?_⟩
  rcases hstep with ⟨f, hf, -⟩ | ⟨k, r, r', hr, hr', hside⟩
  · have hok : ((FlowGraph.layOut division).step (.point 1)
        { env := .ofList [("sum", .int 7), ("parts", .int 2), ("rest", .int 5)] }).isOk = true := by
      decide +kernel
    rw [hf] at hok
    cases hok
  · rw [hwrites] at hside
    obtain ⟨hkept, hkept'⟩ := hside.kept "rest" (by decide)
    exact ⟨k, r, r', hr, hr', hside.set "share" (by decide), hkept.trans (by decide),
      hkept'.trans (by decide)⟩

end Pathwise
