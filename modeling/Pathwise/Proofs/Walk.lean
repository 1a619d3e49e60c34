import Pathwise.FlowGraph.Run
import Pathwise.Proofs.Wiring

/-!
Walks of a running flow graph: the nodes that a run leaves behind, one step after another.

What a step does is said once for each kind of fan, and a run is a walk that is cut off by the step
limit: `run_of_walk_exit` and `run_of_walk_fault` give the answer of a run from its walk, and
`walk_of_run` gives the walk back from the answer.
-/

namespace Pathwise

theorem eval_negate (env : Env) (c : Cond) : c.negate.eval env = (c.eval env).map (!·) := by
  cases c with
  | not c => cases h : c.eval env <;> simp [Cond.negate, Cond.eval, h, bind, Except.bind, pure,
      Except.pure, Except.map]
  | const b => rfl
  | var x => rfl
  | logic op a b => rfl
  | cmp op a b => rfl

theorem eval_negate_eq_ok {env : Env} {c : Cond} {b : Bool} :
    c.negate.eval env = .ok b ↔ c.eval env = .ok !b := by
  rw [eval_negate]
  rcases c.eval env with f | b'
  · simp [Except.map]
  · cases b <;> simp [Except.map]

namespace FlowGraph

variable {g : FlowGraph} {n : Node}

/-! ## One step -/

theorem step_nil (h : g.outgoing n = []) (m : Machine) : g.step n m = .error (.stuck n) := by
  simp [step, h, firstEnabled]

theorem step_straight {a : Action} {k : Node} (h : g.outgoing n = [⟨n, k, .const true, a, .next⟩])
    (m : Machine) : g.step n m = match a.perform m with
      | .error f => .error (.fault n f)
      | .ok m' => .ok (k, m') := by
  simp only [step, h, firstEnabled, Cond.eval, bind, Except.bind, ↓reduceIte]
  rfl

theorem step_fork {c : Cond} {w₁ w₂ : Way} {yes no : Node}
    (h : g.outgoing n = [⟨n, yes, c, .skip, w₁⟩, ⟨n, no, c.negate, .skip, w₂⟩]) (m : Machine) :
    g.step n m = match c.eval m.env with
      | .error f => .error (.fault n f)
      | .ok b => .ok (if b then yes else no, m) := by
  rcases hc : c.eval m.env with f | b
  · simp [step, h, firstEnabled, hc, bind, Except.bind]
  · cases b <;> simp [step, h, firstEnabled, eval_negate, hc, bind, Except.bind, Except.map, pure,
      Except.pure, Action.perform]

/-- The edges from `n` to `k`, with the condition under which a step from `n` comes to `k`. -/
inductive Link (g : FlowGraph) (n k : Node) : List Edge → Prop
  | none : Link g n k []
  | single (e : Edge) (h : ∀ m m', g.step n m = .ok (k, m') ↔
      e.guard.eval m.env = .ok true ∧ e.action.perform m = .ok m') : Link g n k [e]
  | double (c : Cond) (w₁ w₂ : Way) (h : ∀ m m', g.step n m = .ok (k, m') ↔
      m' = m ∧ ∃ b, c.eval m.env = .ok b) :
    Link g n k [⟨n, k, c, .skip, w₁⟩, ⟨n, k, c.negate, .skip, w₂⟩]

theorem step_straight_eq_ok {a : Action} {k : Node}
    (h : g.outgoing n = [⟨n, k, .const true, a, .next⟩]) (m m' : Machine) :
    g.step n m = .ok (k, m') ↔ a.perform m = .ok m' := by
  rw [step_straight h]
  split
  · rename_i f hf
    simp [hf]
  · rename_i r hr
    simp [hr]

theorem step_fork_eq_ok {c : Cond} {w₁ w₂ : Way} {yes no k : Node}
    (h : g.outgoing n = [⟨n, yes, c, .skip, w₁⟩, ⟨n, no, c.negate, .skip, w₂⟩]) (m m' : Machine) :
    g.step n m = .ok (k, m') ↔ m' = m ∧ ∃ b, c.eval m.env = .ok b ∧ (if b then yes else no) = k := by
  rw [step_fork h]
  split
  · rename_i f hf
    simp [hf]
  · rename_i b hb
    simp [hb, eq_comm, and_comm]

theorem link_edgesBetween (h : Fan n (g.outgoing n)) (k : Node) : Link g n k (g.edgesBetween n k) := by
  have hbetween : g.edgesBetween n k = (g.outgoing n).filter (·.target = k) := rfl
  rw [hbetween]
  generalize ho : g.outgoing n = out at h
  cases h with
  | nil => exact .none
  | straight a k' =>
    by_cases hk : k' = k
    · subst hk
      simp only [List.filter_cons, List.filter_nil, decide_true, ↓reduceIte]
      refine .single _ fun m m' => ?_
      rw [step_straight_eq_ok ho]
      simp [Cond.eval]
    · simp only [List.filter_cons, List.filter_nil, hk, decide_false, Bool.false_eq_true, ↓reduceIte]
      exact .none
  | fork c w₁ w₂ yes no =>
    have hstep := step_fork_eq_ok (k := k) ho
    by_cases hy : yes = k
    · by_cases hn : no = k
      · subst hy hn
        simp only [List.filter_cons, List.filter_nil, decide_true, ↓reduceIte]
        refine .double c w₁ w₂ fun m m' => ?_
        rw [hstep]
        simp
      · simp only [List.filter_cons, List.filter_nil, hy, hn, decide_true, decide_false,
          Bool.false_eq_true, ↓reduceIte]
        refine .single _ fun m m' => ?_
        rw [hstep]
        constructor
        · rintro ⟨rfl, b, hb, hbk⟩
          cases b with
          | true => exact ⟨hb, rfl⟩
          | false => exact absurd hbk hn
        · rintro ⟨hb, hm⟩
          cases hm
          exact ⟨rfl, true, hb, hy⟩
    · by_cases hn : no = k
      · simp only [List.filter_cons, List.filter_nil, hy, hn, decide_true, decide_false,
          Bool.false_eq_true, ↓reduceIte]
        refine .single _ fun m m' => ?_
        rw [hstep]
        constructor
        · rintro ⟨rfl, b, hb, hbk⟩
          cases b with
          | true => exact absurd hbk hy
          | false => exact ⟨eval_negate_eq_ok.2 hb, rfl⟩
        · rintro ⟨hb, hm⟩
          cases hm
          exact ⟨rfl, false, eval_negate_eq_ok.1 hb, hn⟩
      · simp only [List.filter_cons, List.filter_nil, hy, hn, decide_false, Bool.false_eq_true,
          ↓reduceIte]
        exact .none

/-! ## Walks -/

/-- `g.Walk n m w n' m'`: from `n` with the machine `m` the graph steps through the nodes `w`, `n`
first, and stands at `n'` with the machine `m'`. -/
inductive Walk (g : FlowGraph) : Node → Machine → Path → Node → Machine → Prop
  | refl (n : Node) (m : Machine) : Walk g n m [] n m
  | step {n n' k : Node} {m m' r : Machine} {w : Path} :
    g.step n m = .ok (n', m') → Walk g n' m' w k r → Walk g n m (n :: w) k r

theorem Walk.single {n' : Node} {m m' : Machine} (h : g.step n m = .ok (n', m')) :
    g.Walk n m [n] n' m' :=
  .step h (.refl n' m')

theorem Walk.trans {n' k : Node} {m m' r : Machine} {w v : Path} (h : g.Walk n m w n' m')
    (h' : g.Walk n' m' v k r) : g.Walk n m (w ++ v) k r := by
  induction h with
  | refl => exact h'
  | step hs _ ih => exact .step hs (ih h')

theorem Walk.head?_eq {k : Node} {m r : Machine} {w : Path} (h : g.Walk n m w k r) :
    (w ++ [k]).head? = some n := by
  cases h <;> rfl

/-! ## Runs as walks -/

variable {limit left : Nat} {earlier : List Node} {m r : Machine} {w : Path} {k : Node}

theorem runFrom_exit : g.runFrom limit left earlier .exit m = ⟨m, .ok (earlier.reverse ++ [.exit])⟩ := by
  unfold runFrom
  simp

theorem runFrom_zero (hn : n ≠ .exit) :
    g.runFrom limit 0 earlier n m = ⟨m, .error (.stepLimit limit)⟩ := by
  unfold runFrom
  simp [hn]

theorem runFrom_succ (hn : n ≠ .exit) : g.runFrom limit (left + 1) earlier n m =
    match g.step n m with
    | .error e => ⟨m, .error e⟩
    | .ok (n', m') => g.runFrom limit left (n :: earlier) n' m' := by
  rw [runFrom]
  exact if_neg hn

theorem runFrom_walk (hx : g.outgoing .exit = []) (h : g.Walk n m w k r) (hl : w.length ≤ left) :
    g.runFrom limit left earlier n m =
      g.runFrom limit (left - w.length) (w.reverse ++ earlier) k r := by
  induction h generalizing left earlier with
  | refl => simp
  | @step n n' k m m' r w hs hw ih =>
    have hn : n ≠ .exit := by
      rintro rfl
      simp [step_nil hx] at hs
    obtain ⟨left, rfl⟩ : ∃ i, left = i + 1 := ⟨left - 1, by simp at hl; omega⟩
    simp only [List.length_cons, Nat.add_le_add_iff_right] at hl
    rw [runFrom_succ hn, hs]
    simp only [ih hl, List.length_cons, Nat.add_sub_add_right, List.reverse_cons,
      List.append_assoc, List.cons_append, List.nil_append]

/-- A walk that is longer than the steps left does not come to its end. -/
theorem runFrom_cut (hx : g.outgoing .exit = []) (h : g.Walk n m w k r) (hl : left < w.length) :
    (g.runFrom limit left earlier n m).result = .error (.stepLimit limit) := by
  induction h generalizing left earlier with
  | refl => simp at hl
  | @step n n' k m m' r w hs hw ih =>
    have hn : n ≠ .exit := by
      rintro rfl
      simp [step_nil hx] at hs
    cases left with
    | zero => rw [runFrom_zero hn]
    | succ left =>
      rw [runFrom_succ hn, hs]
      exact ih (by simpa using hl)

theorem run_of_walk_exit (hx : g.outgoing .exit = []) (h : g.Walk .entry m w .exit r)
    (hl : w.length ≤ limit) : g.run limit m = ⟨r, .ok (w ++ [.exit])⟩ := by
  rw [run, runFrom_walk hx h hl, runFrom_exit]
  simp

theorem run_of_walk_fault (hx : g.outgoing .exit = []) {f : Fault} (h : g.Walk .entry m w n r)
    (hs : g.step n r = .error (.fault n f)) (hl : w.length < limit) :
    g.run limit m = ⟨r, .error (.fault n f)⟩ := by
  have hn : n ≠ .exit := by
    rintro rfl
    simp [step_nil hx] at hs
  obtain ⟨left, hleft⟩ : ∃ i, limit - w.length = i + 1 := ⟨limit - w.length - 1, by omega⟩
  rw [run, runFrom_walk hx h (by omega), hleft, runFrom_succ hn, hs]

theorem run_of_walk_fault_cut (hx : g.outgoing .exit = []) {f : Fault} (h : g.Walk .entry m w n r)
    (hs : g.step n r = .error (.fault n f)) (hl : limit ≤ w.length) :
    (g.run limit m).result = .error (.stepLimit limit) := by
  rcases Nat.lt_or_ge limit w.length with hlt | hge
  · exact runFrom_cut hx h hlt
  · have hn : n ≠ .exit := by
      rintro rfl
      simp [step_nil hx] at hs
    rw [run, runFrom_walk hx h hge, Nat.sub_eq_zero_of_le hl, runFrom_zero hn]

theorem walk_of_runFrom {p : Path} (h : g.runFrom limit left earlier n m = ⟨r, .ok p⟩) :
    ∃ w, g.Walk n m w .exit r ∧ w.length ≤ left ∧ p = earlier.reverse ++ (w ++ [.exit]) := by
  induction left generalizing n m earlier with
  | zero =>
    by_cases hn : n = .exit
    · subst hn
      rw [runFrom_exit] at h
      cases h
      exact ⟨[], .refl _ _, by simp, rfl⟩
    · rw [runFrom_zero hn] at h
      cases h
  | succ left ih =>
    by_cases hn : n = .exit
    · subst hn
      rw [runFrom_exit] at h
      cases h
      exact ⟨[], .refl _ _, by simp, rfl⟩
    · rw [runFrom_succ hn] at h
      rcases hs : g.step n m with e | ⟨n', m'⟩
      · rw [hs] at h
        cases h
      · rw [hs] at h
        obtain ⟨w, hw, hl, rfl⟩ := ih h
        exact ⟨n :: w, .step hs hw, by simpa using hl, by simp⟩

/-- A run that comes to the exit is a walk there. -/
theorem walk_of_run {p : Path} (h : g.run limit m = ⟨r, .ok p⟩) :
    ∃ w, g.Walk .entry m w .exit r ∧ w.length ≤ limit ∧ p = w ++ [.exit] := by
  simpa using walk_of_runFrom h

/-- With enough steps a run takes a path exactly if it is a walk along it. -/
theorem run_eq_ok_iff (hx : g.outgoing .exit = []) (hl : w.length ≤ limit) :
    g.run limit m = ⟨r, .ok (w ++ [.exit])⟩ ↔ g.Walk .entry m w .exit r := by
  constructor
  · intro h
    obtain ⟨w', hw', -, hp⟩ := walk_of_run h
    rw [List.append_cancel_right hp]
    exact hw'
  · intro h
    exact run_of_walk_exit hx h hl

end FlowGraph

end Pathwise
