import Pathwise.Program.Execution
import Pathwise.Proofs.Walk

/-!
Running the flow graph of a program does what executing the program does.

`Answers` says what a walk of the graph owes to each answer of an execution: a walk to the node that
follows for a finished one, a walk to the failing step for a failed one, and a walk as long as the
bound for one that is lost. `answers_execute` proves it by induction on the program, and the run is
then read off the walk.
-/

namespace Pathwise

namespace Program

/-! ## Executions under larger bounds -/

theorem andThen_eq_some {r : Option Outcome} {next : Machine → Option Outcome} {o : Outcome} :
    andThen r next = some o ↔
      (∃ m, r = some (.done m) ∧ next m = some o) ∨ ∃ m f, r = some (.failed m f) ∧ o = .failed m f := by
  rcases r with _ | ⟨m⟩ | ⟨m, f⟩
  · simp [andThen]
  · simp [andThen]
  · constructor
    · intro h
      exact Or.inr ⟨m, f, rfl, (Option.some.inj h).symm⟩
    · rintro (⟨_, h, _⟩ | ⟨_, _, h, rfl⟩)
      · cases h
      · exact h

theorem andThen_mono {r r' : Option Outcome} {next next' : Machine → Option Outcome} {o : Outcome}
    (hr : ∀ o, r = some o → r' = some o) (hn : ∀ m o, next m = some o → next' m = some o)
    (h : andThen r next = some o) : andThen r' next' = some o := by
  rw [andThen_eq_some] at h ⊢
  rcases h with ⟨m, h, h'⟩ | ⟨m, f, h, h'⟩
  · exact Or.inl ⟨m, hr _ h, hn _ _ h'⟩
  · exact Or.inr ⟨m, f, hr _ h, h'⟩

theorem repeatWhile_mono {c : Cond} {body body' : Machine → Option Outcome} {t t' : Nat} {m : Machine}
    {o : Outcome} (hb : ∀ m o, body m = some o → body' m = some o) (ht : t ≤ t')
    (h : repeatWhile c body t m = some o) : repeatWhile c body' t' m = some o := by
  induction t generalizing t' m o with
  | zero => simp [repeatWhile] at h
  | succ t ih =>
    obtain ⟨t', rfl⟩ : ∃ i, t' = i + 1 := ⟨t' - 1, by omega⟩
    simp only [repeatWhile] at h ⊢
    rcases hc : c.eval m.env with f | _ | _ <;> simp only [hc] at h ⊢
    · exact h
    · exact h
    · have ht' : t ≤ t' := by omega
      exact andThen_mono (hb m) (fun _ _ => ih ht') h

/-- An answer that is found stays the same under every larger bound. -/
theorem execute_mono {p : Program} {b b' : Nat} {m : Machine} {o : Outcome} (hb : b ≤ b')
    (h : p.execute b m = some o) : p.execute b' m = some o := by
  induction p generalizing m o with
  | skip => exact h
  | assign l x e => exact h
  | input l x => exact h
  | print l e => exact h
  | seq p q ihp ihq => exact andThen_mono (fun _ => ihp) (fun _ _ => ihq) h
  | branch l c p q ihp ihq =>
    simp only [execute] at h ⊢
    rcases hc : c.eval m.env with f | _ | _ <;> simp only [hc] at h ⊢
    · exact h
    · exact ihq h
    · exact ihp h
  | loop l c body ih => exact repeatWhile_mono (fun _ _ => ih) hb h

/-- The execution comes to `o` under every bound that is large enough. -/
def EndsIn (p : Program) (m : Machine) (o : Outcome) : Prop :=
  ∃ b, ∀ b' ≥ b, p.execute b' m = some o

/-- No bound is large enough for the execution to come to an end. -/
def RunsForever (p : Program) (m : Machine) : Prop :=
  ∀ b, p.execute b m = none

theorem endsIn_or_runsForever (p : Program) (m : Machine) :
    (∃ o, p.EndsIn m o) ∨ p.RunsForever m := by
  by_cases h : ∃ b o, p.execute b m = some o
  · obtain ⟨b, o, h⟩ := h
    exact Or.inl ⟨o, b, fun _ hb => execute_mono hb h⟩
  · refine Or.inr fun b => ?_
    cases hb : p.execute b m with
    | none => rfl
    | some o => exact absurd ⟨b, o, hb⟩ h

end Program

/-! ## Walks that answer executions -/

/-- What a walk from `n` with the machine `m` owes to the answer of an execution under the bound `t`,
where `k` is the node that follows. -/
def FlowGraph.Answers (g : FlowGraph) (n k : Node) (t : Nat) (m : Machine) : Option Outcome → Prop
  | some (.done r) => ∃ w, g.Walk n m w k r
  | some (.failed r f) => ∃ w n', g.Walk n m w n' r ∧ g.step n' r = .error (.fault n' f)
  | none => ∃ w n' r, t ≤ w.length ∧ g.Walk n m w n' r

namespace FlowGraph

variable {g : FlowGraph} {n n' k : Node} {m m' : Machine} {t : Nat} {o : Option Outcome}

theorem Answers.mono {t' : Nat} (ht : t' ≤ t) (h : g.Answers n k t m o) : g.Answers n k t' m o := by
  rcases o with _ | ⟨r⟩ | ⟨r, f⟩
  · obtain ⟨w, n', r, hl, hw⟩ := h
    exact ⟨w, n', r, by omega, hw⟩
  · exact h
  · exact h

/-- A walk ahead of an answer counts toward the bound. -/
theorem Answers.after {v : Path} (hv : g.Walk n m v n' m') (h : g.Answers n' k t m' o) :
    g.Answers n k (v.length + t) m o := by
  rcases o with _ | ⟨r⟩ | ⟨r, f⟩
  · obtain ⟨w, j, r, hl, hw⟩ := h
    exact ⟨v ++ w, j, r, by simp; omega, hv.trans hw⟩
  · obtain ⟨w, hw⟩ := h
    exact ⟨v ++ w, hv.trans hw⟩
  · obtain ⟨w, j, hw, hs⟩ := h
    exact ⟨v ++ w, j, hv.trans hw, hs⟩

theorem Answers.andThen {next : Machine → Option Outcome} (h : g.Answers n n' t m o)
    (hn : ∀ r, g.Answers n' k t r (next r)) : g.Answers n k t m (Program.andThen o next) := by
  rcases o with _ | ⟨r⟩ | ⟨r, f⟩
  · exact h
  · obtain ⟨w, hw⟩ := h
    exact ((hn r).after hw).mono (by omega)
  · exact h

/-- A statement that acts and goes on. -/
theorem answers_straight {l : Label} {a : Action}
    (h : g.outgoing (.point l) = Program.straight l a k) :
    g.Answers (.point l) k t m (some (Program.perform a m)) := by
  have hs := step_straight h m
  unfold Program.perform
  rcases ha : a.perform m with f | r <;> rw [ha] at hs
  · exact ⟨[], .point l, .refl _ _, hs⟩
  · exact ⟨[.point l], .single hs⟩

/-- The loop rule: every test takes a step, so a loop that is lost has walked as often as it tested. -/
theorem answers_repeatWhile {l : Label} {c : Cond} {j : Node} {body : Machine → Option Outcome}
    (h : g.outgoing (.point l) = Program.fork l c .body .leave j k)
    (hb : ∀ m, g.Answers j (.point l) t m (body m)) {i : Nat} (hi : i ≤ t) :
    g.Answers (.point l) k i m (Program.repeatWhile c body i m) := by
  induction i generalizing m with
  | zero => exact ⟨[], .point l, m, by simp, .refl _ _⟩
  | succ i ih =>
    have hs := step_fork h m
    unfold Program.repeatWhile
    rcases hc : c.eval m.env with f | _ | _ <;> rw [hc] at hs
    · exact ⟨[], .point l, .refl _ _, hs⟩
    · exact ⟨[.point l], .single hs⟩
    · have hbody := ((hb m).mono (by omega : i ≤ t)).andThen fun r => ih (by omega)
      have hlen : [Node.point l].length = 1 := rfl
      exact (hbody.after (.single hs)).mono (by omega)

/-- A program that is wired in before `k` walks to what its execution answers. -/
theorem answers_execute {p : Program} (h : p.WiredIn g k) :
    g.Answers (p.first k) k t m (p.execute t m) := by
  induction p generalizing k m with
  | skip => exact ⟨[], .refl _ _⟩
  | assign l x e => exact answers_straight h
  | input l x => exact answers_straight h
  | print l e => exact answers_straight h
  | seq p q ihp ihq => exact (ihp h.1).andThen fun _ => ihq h.2
  | branch l c p q ihp ihq =>
    obtain ⟨hl, hp, hq⟩ := h
    have hs := step_fork hl m
    simp only [Program.execute]
    rcases hc : c.eval m.env with f | _ | _ <;> rw [hc] at hs
    · exact ⟨[], .point l, .refl _ _, hs⟩
    · exact ((ihq hq).after (.single hs)).mono (by simp)
    · exact ((ihp hp).after (.single hs)).mono (by simp)
  | loop l c body ih => exact answers_repeatWhile h.1 (fun _ => ih h.2) (Nat.le_refl t)

/-- The same from the entry, where one more step is taken. -/
theorem answers_ofProgram {p : Program} (hg : FlowGraph.ofProgram p = .ok g) :
    g.Answers .entry .exit (1 + t) m (p.execute t m) := by
  have hs := step_straight (outgoing_entry hg) m
  exact (answers_execute (wiredIn_of_ofProgram hg)).after (.single hs)

/-! ## Runs and executions -/

/-- What a run comes to under large limits, it comes to in one way. -/
theorem run_eventually_unique {a a' : Run} {N N' : Nat} (h : ∀ limit ≥ N, g.run limit m = a)
    (h' : ∀ limit ≥ N', g.run limit m = a') : a = a' :=
  (h (max N N') (by omega)).symm.trans (h' (max N N') (by omega))

section
variable {p : Program} (hg : FlowGraph.ofProgram p = .ok g)
include hg

theorem run_of_endsIn_done {r : Machine} (h : p.EndsIn m (.done r)) :
    ∃ path N, (∀ limit ≥ N, g.run limit m = ⟨r, .ok path⟩) ∧
      ∀ limit < N, (g.run limit m).result = .error (.stepLimit limit) := by
  obtain ⟨b, hb⟩ := h
  have ha := answers_ofProgram (t := b) (m := m) hg
  rw [hb b (Nat.le_refl b)] at ha
  obtain ⟨w, hw⟩ := ha
  have hx := outgoing_exit hg
  exact ⟨w ++ [.exit], w.length, fun _ hl => run_of_walk_exit hx hw hl,
    fun _ hl => runFrom_cut hx hw hl⟩

theorem run_of_endsIn_failed {r : Machine} {f : Fault} (h : p.EndsIn m (.failed r f)) :
    ∃ n N, (∀ limit ≥ N, g.run limit m = ⟨r, .error (.fault n f)⟩) ∧
      ∀ limit < N, (g.run limit m).result = .error (.stepLimit limit) := by
  obtain ⟨b, hb⟩ := h
  have ha := answers_ofProgram (t := b) (m := m) hg
  rw [hb b (Nat.le_refl b)] at ha
  obtain ⟨w, n, hw, hs⟩ := ha
  have hx := outgoing_exit hg
  exact ⟨n, w.length + 1, fun _ hl => run_of_walk_fault hx hw hs hl,
    fun _ hl => run_of_walk_fault_cut hx hw hs (Nat.le_of_lt_succ hl)⟩

theorem run_of_runsForever (h : p.RunsForever m) (limit : Nat) :
    (g.run limit m).result = .error (.stepLimit limit) := by
  have ha := answers_ofProgram (t := limit) (m := m) hg
  rw [h limit] at ha
  obtain ⟨w, n, r, hl, hw⟩ := ha
  exact runFrom_cut (outgoing_exit hg) hw (by omega)

/-- A run comes to an end, fails or is cut off; nothing else happens to it. -/
theorem run_ne_stuck (limit : Nat) (n : Node) : (g.run limit m).result ≠ .error (.stuck n) := by
  rcases p.endsIn_or_runsForever m with ⟨⟨r⟩ | ⟨r, f⟩, hend⟩ | hforever
  · obtain ⟨path, N, hrun, hcut⟩ := run_of_endsIn_done hg hend
    rcases Nat.lt_or_ge limit N with hl | hl
    · simp [hcut limit hl]
    · simp [hrun limit hl]
  · obtain ⟨n', N, hrun, hcut⟩ := run_of_endsIn_failed hg hend
    rcases Nat.lt_or_ge limit N with hl | hl
    · simp [hcut limit hl]
    · simp [hrun limit hl]
  · simp [run_of_runsForever hg hforever limit]

theorem endsIn_done_iff {r : Machine} :
    p.EndsIn m (.done r) ↔ ∃ path N, ∀ limit ≥ N, g.run limit m = ⟨r, .ok path⟩ := by
  constructor
  · intro h
    obtain ⟨path, N, hrun, -⟩ := run_of_endsIn_done hg h
    exact ⟨path, N, hrun⟩
  · rintro ⟨path, N, hrun⟩
    rcases p.endsIn_or_runsForever m with ⟨⟨r'⟩ | ⟨r', f⟩, hend⟩ | hforever
    · obtain ⟨path', N', hrun', -⟩ := run_of_endsIn_done hg hend
      cases run_eventually_unique hrun hrun'
      exact hend
    · obtain ⟨n', N', hrun', -⟩ := run_of_endsIn_failed hg hend
      cases run_eventually_unique hrun hrun'
    · have hcut := run_of_runsForever hg hforever N
      simp [hrun N (Nat.le_refl N)] at hcut

theorem endsIn_failed_iff {r : Machine} {f : Fault} :
    p.EndsIn m (.failed r f) ↔ ∃ n N, ∀ limit ≥ N, g.run limit m = ⟨r, .error (.fault n f)⟩ := by
  constructor
  · intro h
    obtain ⟨n, N, hrun, -⟩ := run_of_endsIn_failed hg h
    exact ⟨n, N, hrun⟩
  · rintro ⟨n, N, hrun⟩
    rcases p.endsIn_or_runsForever m with ⟨⟨r'⟩ | ⟨r', f'⟩, hend⟩ | hforever
    · obtain ⟨path', N', hrun', -⟩ := run_of_endsIn_done hg hend
      cases run_eventually_unique hrun hrun'
    · obtain ⟨n', N', hrun', -⟩ := run_of_endsIn_failed hg hend
      cases run_eventually_unique hrun hrun'
      exact hend
    · have hcut := run_of_runsForever hg hforever N
      simp [hrun N (Nat.le_refl N)] at hcut

theorem runsForever_iff :
    p.RunsForever m ↔ ∀ limit, (g.run limit m).result = .error (.stepLimit limit) := by
  constructor
  · exact run_of_runsForever hg
  · intro hcut
    rcases p.endsIn_or_runsForever m with ⟨⟨r⟩ | ⟨r, f⟩, hend⟩ | hforever
    · obtain ⟨path, N, hrun, -⟩ := run_of_endsIn_done hg hend
      simpa [hrun N (Nat.le_refl N)] using hcut N
    · obtain ⟨n, N, hrun, -⟩ := run_of_endsIn_failed hg hend
      simpa [hrun N (Nat.le_refl N)] using hcut N
    · exact hforever

end

end FlowGraph

/-- Running the flow graph of a program refines executing it: the two come to the same machine, or fail
alike with the same machine; an execution that never ends exceeds every step limit; and no run gets
stuck. The machine holds the inputs that are left and the outputs made. -/
theorem run_refines_execute {p : Program} (hp : p.labels.Nodup) :
    ∃ g, FlowGraph.ofProgram p = .ok g ∧ ∀ m,
      (∀ r, p.EndsIn m (.done r) ↔ ∃ path N, ∀ limit ≥ N, g.run limit m = ⟨r, .ok path⟩) ∧
      (∀ r f, p.EndsIn m (.failed r f) ↔
        ∃ n N, ∀ limit ≥ N, g.run limit m = ⟨r, .error (.fault n f)⟩) ∧
      (p.RunsForever m ↔ ∀ limit, (g.run limit m).result = .error (.stepLimit limit)) ∧
      ∀ limit n, (g.run limit m).result ≠ .error (.stuck n) := by
  have hg := ofProgram_of_nodup hp
  exact ⟨_, hg, fun m => ⟨fun _ => FlowGraph.endsIn_done_iff hg,
    fun _ _ => FlowGraph.endsIn_failed_iff hg, FlowGraph.runsForever_iff hg,
    FlowGraph.run_ne_stuck hg⟩⟩

/-- Count an input down to zero. -/
def countdown : Program :=
  .seq (.input 1 "x") (.loop 2 (.cmp .gt (.var "x") (.const 0))
    (.assign 3 "x" (.binary .sub (.var "x") (.const 1))))

theorem run_refines_execute_countdown : countdown.labels.Nodup ∧
    ∃ g, FlowGraph.ofProgram countdown = .ok g ∧ ∃ path N, ∀ limit ≥ N,
      g.run limit { env := .empty, inputs := [2, 7] } =
        ⟨{ env := .ofList [("x", .int 0)], inputs := [7] }, .ok path⟩ := by
  have hp : countdown.labels.Nodup := by decide
  obtain ⟨g, hg, h⟩ := run_refines_execute hp
  refine ⟨hp, g, hg, (h _).1 _ |>.1 ⟨3, fun b hb => Program.execute_mono hb ?_⟩⟩
  decide +kernel

end Pathwise
