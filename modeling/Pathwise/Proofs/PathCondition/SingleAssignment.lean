import Pathwise.Proofs.PathCondition.Invariants

/-!
Path conditions are in single assignment form.

Each version of a variable and each intermediate result is defined once, before it is used and from
symbols that are older; all other symbols are free and stand for initial values and inputs. Which these
are is read off the path: `Accounts` relates the lists of a condition to what has been done with
variables so far, and every step of growth keeps it.
-/

namespace Pathwise

/-! ## Definitions -/

/-- The value of the symbol is computed from those of others. -/
def Origin.IsComputed : Origin → Prop
  | version _ _ | aux => True
  | initial _ | input _ _ => False

/-- What defines a symbol speaks of smaller ones. -/
def Constraint.LooksBack : Constraint → Prop
  | define s d => ∀ t : Nat, t ∈ d.symbols → t < s
  | assert _ => True

/-- The symbol has one definition, which stands before everything else that mentions the symbol, and
whose operands are constants or smaller symbols. -/
def Problem.DefinedOnce (p : Problem) (s : Nat) : Prop :=
  ∃ d before after, p.constraints = before ++ .define s d :: after ∧
    (∀ k ∈ before, s ∉ k.symbols) ∧ (∀ k ∈ after, k.target? ≠ some s) ∧
    ∀ t ∈ d.operands, (∃ n, t = .const n) ∨ ∃ r : Nat, r < s ∧ t = .sym r

theorem Problem.WellFormed.definedOnce {p : Problem} {s : Nat} {d : Definition} (hp : p.WellFormed)
    (hd : .define s d ∈ p.constraints) (hback : (Constraint.define s d).LooksBack) :
    p.DefinedOnce s := by
  obtain ⟨before, after, heq⟩ := List.append_of_mem hd
  have hfresh := hp.freshTargets
  rw [heq, List.pairwise_append, List.pairwise_cons] at hfresh
  obtain ⟨-, ⟨hafter, -⟩, hbefore⟩ := hfresh
  refine ⟨d, before, after, heq, fun k hk => ?_, fun k hk ht => ?_, fun t ht => ?_⟩
  · exact hbefore k hk (.define s d) (by simp) s rfl
  · exact hafter k hk s ht (by simp [Constraint.symbols])
  · cases t with
    | const n => exact .inl ⟨n, rfl⟩
    | sym r => exact .inr ⟨r, hback r (List.mem_flatMap.2 ⟨_, ht, by simp [Term.symbols]⟩), rfl⟩

namespace PathCondition

variable {c c' : PathCondition} {w : Option Touch} {ts : List Touch} {x : String}

/-- The constraints use symbols at their kinds, and definitions speak of smaller symbols. -/
def Orderly (c : PathCondition) : Prop :=
  ∀ k ∈ c.problem.constraints, c.Fits k.symbolUses ∧ k.LooksBack

theorem Orderly.define {name : String} {o : Origin} {d : Definition} (hc : c.Orderly)
    (he : Extends c c') (hd : c.Fits d.symbolUses)
    (h : c'.problem = (c.problem.fresh name .int o).2.add (.define c.problem.symbols.length d)) :
    c'.Orderly := by
  intro k hk
  rw [h] at hk
  rcases List.mem_append.1 hk with hk | hk
  · exact ⟨he.fits (hc k hk).1, (hc k hk).2⟩
  · obtain rfl := List.mem_singleton.1 hk
    exact ⟨(fits_fresh h).append (he.fits hd), fun t ht => hd.lt (d.symbols_eq_map ▸ ht)⟩

theorem Step.orderly (h : Step c w c') (hc : c.Orderly) : c'.Orderly := by
  have he := h.extends
  have hold : ∀ k ∈ c.problem.constraints, c'.Fits k.symbolUses ∧ k.LooksBack := fun k hk =>
    ⟨he.fits (hc k hk).1, (hc k hk).2⟩
  cases h with
  | init x k _ => exact hold
  | again x _ => exact hc
  | check f hf =>
    intro k hk
    rcases List.mem_append.1 hk with hk | hk
    · exact hold k hk
    · obtain rfl := List.mem_singleton.1 hk
      exact ⟨he.fits hf, trivial⟩
  | define d hd => exact hc.define he hd rfl
  | assign x n t ht =>
    refine hc.define he ?_ rfl
    simpa [Definition.symbolUses, Definition.operands] using ht
  | receive x n => exact hold

theorem Made.orderly (hc : c.Made) : c.Orderly := by
  obtain ⟨ts, hts⟩ := hc
  exact hts.keeps Step.orderly (by simp [Orderly])

/-- A symbol that is computed is neither an initial value nor an input. -/
theorem Made.not_mem_free {s : Nat} {o : Origin} (hc : c.Made)
    (ho : c.problem.originOf? s = some o) (hcomp : o.IsComputed) : s ∉ c.problem.free := by
  intro hs
  rcases hc.mem_free_iff.1 hs with hs | hs
  · obtain ⟨q, hq, rfl⟩ := List.mem_map.1 hs
    rw [hc.listed.initial q hq] at ho
    cases ho
    exact hcomp
  · obtain ⟨q, hq, rfl⟩ := List.mem_map.1 hs
    obtain ⟨j, hj⟩ := List.getElem?_of_mem hq
    rw [(hc.listed.inputs j q hj).1] at ho
    cases ho
    exact hcomp

theorem Made.definedOnce {s : Nat} {o : Origin} (hc : c.Made)
    (ho : c.problem.originOf? s = some o) (hcomp : o.IsComputed) :
    c.problem.kindOf s = .int ∧ c.problem.DefinedOnce s := by
  have hfree := hc.not_mem_free ho hcomp
  obtain ⟨k, hk, ht⟩ : ∃ k ∈ c.problem.constraints, k.target? = some s := by
    by_contra hnone
    refine hfree (Problem.mem_free.2 ⟨Problem.lt_of_originOf? ho, fun k hk ht => ?_⟩)
    exact hnone ⟨k, hk, ht⟩
  refine ⟨hc.wellFormed.intTargets k hk s ht, ?_⟩
  cases k with
  | assert f => cases ht
  | define r d =>
    cases ht
    exact hc.wellFormed.definedOnce hk (hc.orderly _ hk).2

/-! ## Initial values and inputs along the path -/

/-- The condition accounts for what has been done with variables: it has slots for those that were
touched, the initial values of those that were read before any write, and the inputs. -/
structure Accounts (c : PathCondition) (ts : List Touch) : Prop where
  met : ∀ x, c.slots.lookup x ≠ none ↔ ∃ t ∈ ts, t.var = x
  initial : ReadsFirst ts (c.initial.map (·.1))
  inputs : c.inputs.map (·.1) = ts.filterMap Touch.received?

theorem Step.accounts (h : Step c w c') (hc : c.Accounts ts) : c'.Accounts (ts ++ w.toList) := by
  have hmet : ∀ x, c'.slots.lookup x ≠ none ↔ ∃ t ∈ ts ++ w.toList, t.var = x := by
    intro x
    simp only [h.lookup_ne_none_iff x, hc.met x, List.mem_append, Option.mem_toList,
      Option.mem_def, or_and_right, exists_or]
  cases h with
  | init x k hnone =>
    have hx : ∀ t ∈ ts, t.var ≠ x := fun t ht htx => (hc.met x).2 ⟨t, ht, htx⟩ hnone
    refine ⟨hmet, ?_, ?_⟩
    · simpa [initialized] using hc.initial.snoc hx
    · simpa [initialized, List.filterMap_cons, Touch.received?] using hc.inputs
  | again x hx =>
    refine ⟨hmet, hc.initial.keep fun y hy => ?_, ?_⟩
    · cases hy
      exact (hc.met x).1 hx
    · simpa [List.filterMap_cons, Touch.received?] using hc.inputs
  | check f _ =>
    rw [Option.toList_none, List.append_nil]
    exact ⟨hc.met, hc.initial, hc.inputs⟩
  | define d _ =>
    rw [Option.toList_none, List.append_nil]
    exact ⟨hc.met, hc.initial, hc.inputs⟩
  | assign x n t _ =>
    refine ⟨hmet, hc.initial.keep nofun, ?_⟩
    simpa [assigned, List.filterMap_cons, Touch.received?] using hc.inputs
  | receive x n =>
    refine ⟨hmet, hc.initial.keep nofun, ?_⟩
    simp [received, Touch.received?, hc.inputs]

theorem Grows.accounts (h : Grows {} ts c) : c.Accounts ts := by
  induction h with
  | refl => exact ⟨by simp, .nil, rfl⟩
  | tail _ hs ih => exact hs.accounts ih

/-! ## The form of a path condition -/

/-- The condition is in single assignment form, for a path that does `ts` with its variables: what is
computed is defined once; the other symbols are free, and are the initial values of the variables that
are read before any write, in the order of the first reads, and the inputs in their order; and all
symbols are used at their kinds. -/
structure SingleAssignment (c : PathCondition) (ts : List Touch) : Prop where
  computed : ∀ s o, c.problem.originOf? s = some o → o.IsComputed →
    c.problem.kindOf s = .int ∧ c.problem.DefinedOnce s
  free : ∀ s, s ∈ c.problem.free ↔ s ∈ c.initial.map (·.2) ∨ s ∈ c.inputs.map (·.2)
  initial : ReadsFirst ts (c.initial.map (·.1))
  inputs : c.inputs.map (·.1) = ts.filterMap Touch.received?
  kinds : ∀ k ∈ c.problem.constraints, c.Fits k.symbolUses

end PathCondition

open PathCondition

/-- Every path condition is in single assignment form. -/
theorem pathCondition_singleAssignment {prog : Program} {g : FlowGraph}
    (hg : FlowGraph.ofProgram prog = .ok g) {p : Path} {c : PathCondition}
    (hc : g.pathCondition p = .ok c) : c.SingleAssignment (g.touches p) := by
  have hgrows := grows_pathCondition (fan_outgoing hg) hc
  have hmade : c.Made := ⟨_, hgrows⟩
  have haccounts := hgrows.accounts
  exact {
    computed := fun _ _ ho hcomp => hmade.definedOnce ho hcomp
    free := fun _ => hmade.mem_free_iff
    initial := haccounts.initial
    inputs := haccounts.inputs
    kinds := fun k hk => (hmade.orderly k hk).1 }

/-- Read `n`; if the flag is set, add what `n` makes at the rate to the total. Whether that is more than
the cap makes no difference. -/
def ledger : Program :=
  .block [.input 1 "n",
    .branch 2 (.var "flag")
      (.assign 3 "total" (.binary .add (.var "total") (.binary .div (.var "n") (.var "rate")))) .skip,
    .branch 4 (.cmp .lt (.var "cap") (.var "total")) .skip .skip,
    .print 5 (.var "total")]

def ledgerPath : Path := [.entry, .point 1, .point 2, .point 3, .point 4, .point 5, .exit]

theorem pathCondition_singleAssignment_ledger : ∃ g c, FlowGraph.ofProgram ledger = .ok g ∧
    g.pathCondition ledgerPath = .ok c ∧ c.SingleAssignment (g.touches ledgerPath) ∧
    c.initial.map (·.1) = ["flag", "total", "rate", "cap"] ∧ c.inputs.map (·.1) = ["n"] := by
  have hg : FlowGraph.ofProgram ledger = .ok (FlowGraph.layOut ledger) :=
    ofProgram_of_nodup (by decide)
  obtain ⟨c, hc, hinitial, hinputs⟩ : ∃ c, (FlowGraph.layOut ledger).pathCondition ledgerPath = .ok c ∧
      c.initial.map (·.1) = ["flag", "total", "rate", "cap"] ∧ c.inputs.map (·.1) = ["n"] :=
    ⟨_, by rfl, by rfl, by rfl⟩
  exact ⟨_, c, hg, hc, pathCondition_singleAssignment hg hc, hinitial, hinputs⟩

end Pathwise
