import Pathwise.Proofs.Constraint.Symbols

/-!
Completion decides satisfaction.

A constraint that was met on the way stays met, since no definition sets a symbol that an earlier
constraint mentions. So a completed model meets every constraint at the end (`holds_of_complete`), and
a model that meets them all is found from its free symbols (`complete_of_holds`). Completing it once more
changes nothing (`Solves.complete_eq`).
-/

namespace Pathwise

def Value.kind : Value → Kind
  | int _ => .int
  | bool _ => .bool

@[simp] theorem Kind.kind_default (k : Kind) : k.default.kind = k := by
  cases k <;> rfl

/-- The constraint is met by the model as it stands. -/
def Constraint.Holds (m : Model) : Constraint → Prop
  | define s d => ∃ n, d.eval m = some n ∧ m.get? s = some (.int n)
  | assert f => f.eval m = some true

namespace Problem

/-- The model gives every symbol a value of its kind and meets every constraint. -/
structure Solves (p : Problem) (m : Model) : Prop where
  kinds : ∀ s : Nat, s < p.symbols.length → ∃ v, m.get? s = some v ∧ v.kind = p.kindOf s
  holds : ∀ c ∈ p.constraints, c.Holds m

/-- Constraints mention symbols of the problem, and each definition sets an integer symbol that neither
it nor a constraint before it mentions. -/
structure WellFormed (p : Problem) : Prop where
  inRange : ∀ c ∈ p.constraints, ∀ s : Nat, s ∈ c.symbols → s < p.symbols.length
  intTargets : ∀ c ∈ p.constraints, ∀ s, c.target? = some s → p.kindOf s = .int
  freshTargets : p.constraints.Pairwise fun c c' => ∀ s, c'.target? = some s → s ∉ c.symbols
  noCycles : ∀ s d, .define s d ∈ p.constraints → s ∉ d.symbols

/-- The model gives every free symbol its value in `f`, and the default of its kind where `f` has
none. -/
def Adopts (p : Problem) (f m : Model) : Prop :=
  ∀ s ∈ p.free, m.get? s = some ((f.get? s).getD (p.kindOf s).default)

end Problem

/-! ## Maps from lists -/

/-- After a list of bindings is put into a map, a key has one of the values listed for it, and if there
are none the value it had. -/
theorem get_foldl_set {σ κ ν : Type} [DecidableEq κ] {get : σ → κ → Option ν} {set : σ → κ → ν → σ}
    (hset : ∀ m a v b, get (set m a v) b = if b = a then some v else get m b)
    (pairs : List (κ × ν)) (m : σ) (a : κ) :
    (∃ v, (a, v) ∈ pairs ∧ get (pairs.foldl (fun m q => set m q.1 q.2) m) a = some v) ∨
      ((∀ v, (a, v) ∉ pairs) ∧ get (pairs.foldl (fun m q => set m q.1 q.2) m) a = get m a) := by
  induction pairs generalizing m with
  | nil => exact .inr ⟨by simp, rfl⟩
  | cons q pairs ih =>
    rcases ih (set m q.1 q.2) with ⟨v, hv, hget⟩ | ⟨hnone, hget⟩
    · exact .inl ⟨v, by simp [hv], hget⟩
    · rw [hset] at hget
      by_cases ha : a = q.1
      · rw [if_pos ha] at hget
        exact .inl ⟨q.2, by simp [ha], hget⟩
      · rw [if_neg ha] at hget
        refine .inr ⟨fun v hv => ?_, hget⟩
        rcases List.mem_cons.1 hv with hv | hv
        · exact ha (by rw [← hv])
        · exact hnone v hv

theorem Model.get?_ofList (pairs : List (SymbolId × Value)) (s : SymbolId) :
    (∃ v, (s, v) ∈ pairs ∧ (ofList pairs).get? s = some v) ∨
      ((∀ v, (s, v) ∉ pairs) ∧ (ofList pairs).get? s = none) :=
  get_foldl_set (fun m s v t => get?_set m s t v) pairs .empty s

/-! ## One constraint -/

/-- Setting a symbol to the value that it has changes nothing. -/
theorem Model.set_of_get? {m : Model} {s : SymbolId} {v : Value} (h : m.get? s = some v) :
    m.set s v = m := by
  have hv : m.values[s]? = some (some v) := Option.join_eq_some_iff.1 h
  obtain ⟨hs, hget⟩ := Array.getElem?_eq_some_iff.1 hv
  rw [set, if_pos hs, Array.setIfInBounds_def, dif_pos hs, ← hget, Array.set_getElem_self]

theorem Constraint.mem_symbols_of_target? {c : Constraint} {s : SymbolId} (h : c.target? = some s) :
    s ∈ c.symbols := by
  cases c with
  | define t d =>
    obtain rfl : t = s := by simpa [target?] using h
    simp [symbols]
  | assert f => simp [target?] at h

theorem Constraint.holds_congr {c : Constraint} {m m' : Model}
    (h : ∀ s ∈ c.symbols, m.get? s = m'.get? s) : c.Holds m ↔ c.Holds m' := by
  cases c with
  | define s d =>
    simp only [symbols, List.mem_cons, forall_eq_or_imp] at h
    simp only [Holds, d.eval_congr h.2, h.1]
  | assert f => simp only [Holds, f.eval_congr h]

section
variable {c : Constraint} {cs : List Constraint} {m m' : Model} {s : SymbolId}

/-- Only the target of a definition changes. -/
theorem get?_of_enforce (h : c.enforce m = some m') (hs : c.target? ≠ some s) :
    m'.get? s = m.get? s := by
  cases c with
  | define t d =>
    simp only [Constraint.enforce] at h
    split at h
    · cases h
      have hts : s ≠ t := by
        rintro rfl
        exact hs rfl
      simp [hts]
    · cases h
  | assert f =>
    simp only [Constraint.enforce] at h
    split at h
    · cases h
      rfl
    · cases h

theorem get?_of_foldlM_enforce (h : cs.foldlM Constraint.enforce m = some m')
    (hs : ∀ c ∈ cs, c.target? ≠ some s) : m'.get? s = m.get? s := by
  induction cs generalizing m with
  | nil =>
    cases h
    rfl
  | cons c cs ih =>
    rw [List.foldlM_cons] at h
    obtain ⟨m₁, hc, hcs⟩ := Option.bind_eq_some_iff.1 h
    simp only [List.mem_cons, forall_eq_or_imp] at hs
    rw [ih hcs hs.2, get?_of_enforce hc hs.1]

theorem holds_of_enforce (h : c.enforce m = some m')
    (hc : ∀ t d, c = .define t d → t ∉ d.symbols) : c.Holds m' := by
  cases c with
  | define t d =>
    simp only [Constraint.enforce] at h
    split at h
    · rename_i n hn
      cases h
      refine ⟨n, ?_, by simp⟩
      rw [← hn]
      refine d.eval_congr fun s hs => ?_
      have hst : s ≠ t := by
        rintro rfl
        exact hc s d rfl hs
      simp [hst]
    · cases h
  | assert f =>
    simp only [Constraint.enforce] at h
    split at h
    · rename_i hf
      cases h
      exact hf
    · cases h

/-- A constraint that the model meets does not change it. -/
theorem enforce_of_holds (h : c.Holds m) : c.enforce m = some m := by
  cases c with
  | define s d =>
    obtain ⟨n, hd, hs⟩ := h
    simp only [Constraint.enforce, hd, Model.set_of_get? hs]
  | assert f =>
    show (if f.eval m = some true then some m else none) = some m
    exact if_pos h

/-! ## A list of constraints -/

theorem holds_of_foldlM_enforce (h : cs.foldlM Constraint.enforce m = some m')
    (hfresh : cs.Pairwise fun c c' => ∀ s, c'.target? = some s → s ∉ c.symbols)
    (hcyc : ∀ s d, .define s d ∈ cs → s ∉ d.symbols) : ∀ c ∈ cs, c.Holds m' := by
  induction cs generalizing m with
  | nil => simp
  | cons c cs ih =>
    rw [List.foldlM_cons] at h
    obtain ⟨m₁, hc, hcs⟩ := Option.bind_eq_some_iff.1 h
    obtain ⟨hhead, htail⟩ := List.pairwise_cons.1 hfresh
    have hkeep : ∀ s ∈ c.symbols, m₁.get? s = m'.get? s := fun s hs =>
      (get?_of_foldlM_enforce hcs fun c' hc' ht => hhead c' hc' s ht hs).symm
    have hnow : c.Holds m₁ := by
      refine holds_of_enforce hc ?_
      rintro t d rfl
      exact hcyc t d (by simp)
    intro c' hc'
    rcases List.mem_cons.1 hc' with rfl | hc'
    · exact (Constraint.holds_congr hkeep).1 hnow
    · exact ih hcs htail (fun s d hd => hcyc s d (List.mem_cons_of_mem _ hd)) c' hc'

/-- Where every constraint holds of `r`, a model that agrees with `r` on all but the targets to come
is led to `r`. -/
theorem foldlM_enforce_of_holds {r : Model} {n : Nat}
    (hrange : ∀ c ∈ cs, ∀ s : Nat, s ∈ c.symbols → s < n)
    (hfresh : cs.Pairwise fun c c' => ∀ s, c'.target? = some s → s ∉ c.symbols)
    (hcyc : ∀ s d, .define s d ∈ cs → s ∉ d.symbols) (hr : ∀ c ∈ cs, c.Holds r)
    (hm : ∀ s < n, (∀ c ∈ cs, c.target? ≠ some s) → m.get? s = r.get? s) :
    ∃ m', cs.foldlM Constraint.enforce m = some m' ∧ ∀ s < n, m'.get? s = r.get? s := by
  induction cs generalizing m with
  | nil => exact ⟨m, rfl, fun s hs => hm s hs (by simp)⟩
  | cons c cs ih =>
    obtain ⟨hhead, htail⟩ := List.pairwise_cons.1 hfresh
    simp only [List.mem_cons, forall_eq_or_imp] at hrange hr hm
    -- What `c` reads is not set from here on, so the model agrees with `r` on it already.
    have hread : ∀ s ∈ c.symbols, c.target? ≠ some s → m.get? s = r.get? s := fun s hs ht =>
      hm s (hrange.1 s hs) ⟨ht, fun c' hc' ht' => hhead c' hc' s ht' hs⟩
    have hstep : ∃ m₁, c.enforce m = some m₁ ∧
        ∀ s < n, (∀ c' ∈ cs, c'.target? ≠ some s) → m₁.get? s = r.get? s := by
      cases c with
      | define t d =>
        obtain ⟨k, hd, ht⟩ := hr.1
        have hdm : d.eval m = some k := by
          rw [← hd]
          refine d.eval_congr fun s hs => hread s (by simp [Constraint.symbols, hs]) ?_
          intro hts
          obtain rfl : t = s := by simpa [Constraint.target?] using hts
          exact hcyc t d (by simp) hs
        refine ⟨m.set t (.int k), by simp [Constraint.enforce, hdm], fun s hs hcs => ?_⟩
        by_cases hst : s = t
        · subst hst
          simp [ht]
        · have hne : (Constraint.define t d).target? ≠ some s := by
            simpa [Constraint.target?] using Ne.symm hst
          simpa [hst] using hm s hs ⟨hne, hcs⟩
      | assert f =>
        have hf : f.eval m = some true := by
          rw [f.eval_congr fun s hs => hread s hs (by simp [Constraint.target?])]
          exact hr.1
        refine ⟨m, by simp [Constraint.enforce, hf], fun s hs hcs => ?_⟩
        exact hm s hs ⟨by simp [Constraint.target?], hcs⟩
    obtain ⟨m₁, hc, hm₁⟩ := hstep
    obtain ⟨m', hcs, hm'⟩ := ih hrange.2 htail
      (fun s d hd => hcyc s d (List.mem_cons_of_mem _ hd)) hr.2 hm₁
    exact ⟨m', by rw [List.foldlM_cons, hc]; exact hcs, hm'⟩

theorem foldlM_enforce_self (h : ∀ c ∈ cs, c.Holds m) :
    cs.foldlM Constraint.enforce m = some m := by
  induction cs with
  | nil => rfl
  | cons c cs ih =>
    obtain ⟨hc, hcs⟩ := List.forall_mem_cons.1 h
    rw [List.foldlM_cons, enforce_of_holds hc]
    exact ih hcs

end

/-! ## Filling in -/

namespace Problem

theorem get?_fillFrom (m : Model) (i s : Nat) (symbols : List Symbol) :
    (fillFrom m i symbols).get? s =
      (m.get? s).or (if i ≤ s then (symbols[s - i]?).map (·.kind.default) else none) := by
  induction symbols generalizing m i with
  | nil => simp [fillFrom]
  | cons symbol rest ih =>
    have hset : (if (m.get? i).isNone then m.set i symbol.kind.default else m).get? s =
        if s = i then (m.get? s).or (some symbol.kind.default) else m.get? s := by
      by_cases hs : s = i
      · subst hs
        cases h : m.get? s <;> simp [h]
      · split <;> simp [hs]
    rw [fillFrom, ih, hset]
    rcases Nat.lt_trichotomy s i with hlt | rfl | hgt
    · have h₁ : ¬ i + 1 ≤ s := by omega
      have h₂ : ¬ i ≤ s := by omega
      have h₃ : s ≠ i := by omega
      simp [h₁, h₂, h₃]
    · have h₁ : ¬ s + 1 ≤ s := by omega
      simp [h₁]
    · have h₁ : i + 1 ≤ s := by omega
      have h₂ : i ≤ s := by omega
      have h₃ : s ≠ i := by omega
      have h₄ : s - i = (s - (i + 1)) + 1 := by omega
      simp [h₁, h₂, h₃, h₄]

variable {p : Problem} {f m : Model} {s : Nat}

theorem get?_fill (p : Problem) (f : Model) (s : SymbolId) :
    (p.fill f).get? s = (f.get? s).or ((p.symbols[s]?).map (·.kind.default)) := by
  simp [fill, get?_fillFrom]

theorem fillFrom_of_ne_none {i : Nat} {symbols : List Symbol}
    (h : ∀ s < i + symbols.length, i ≤ s → m.get? s ≠ none) : fillFrom m i symbols = m := by
  induction symbols generalizing i with
  | nil => rfl
  | cons symbol rest ih =>
    have hi : m.get? i ≠ none := h i (by simp) (Nat.le_refl i)
    have hsome : (m.get? i).isNone = false :=
      Option.isNone_eq_false_iff.2 (Option.isSome_iff_ne_none.2 hi)
    rw [fillFrom, hsome]
    refine ih fun s hs his => h s ?_ (by omega)
    rw [List.length_cons]
    omega

/-- There is nothing to fill in where every symbol has a value. -/
theorem fill_of_ne_none (h : ∀ s < p.symbols.length, m.get? s ≠ none) : p.fill m = m :=
  fillFrom_of_ne_none fun s hs _ => h s (by omega)

theorem get?_fill_of_lt (hs : s < p.symbols.length) :
    (p.fill f).get? s = some ((f.get? s).getD (p.kindOf s).default) := by
  have hkind : (p.symbols[s]?).map (·.kind.default) = some (p.kindOf s).default := by
    simp [kindOf, hs]
  rw [get?_fill, hkind]
  cases f.get? s <;> rfl

theorem mem_free : s ∈ p.free ↔ s < p.symbols.length ∧ ∀ c ∈ p.constraints, c.target? ≠ some s := by
  simp [free]

/-! ## Completed models -/

theorem get?_of_complete (h : p.complete f = some m) (hs : s ∈ p.free) :
    m.get? s = (p.fill f).get? s :=
  get?_of_foldlM_enforce h (mem_free.1 hs).2

/-- A completed model meets every constraint. -/
theorem holds_of_complete (hp : p.WellFormed) (h : p.complete f = some m) :
    ∀ c ∈ p.constraints, c.Holds m :=
  holds_of_foldlM_enforce h hp.freshTargets hp.noCycles

/-- Completing values of the right kinds solves the problem. -/
theorem solves_of_complete (hp : p.WellFormed)
    (hf : ∀ s ∈ p.free, ∀ v, f.get? s = some v → v.kind = p.kindOf s)
    (h : p.complete f = some m) : p.Solves m := by
  refine ⟨fun s hs => ?_, holds_of_complete hp h⟩
  by_cases hfree : s ∈ p.free
  · rw [get?_of_complete h hfree, get?_fill]
    cases hv : f.get? s with
    | some v => exact ⟨v, rfl, hf s hfree v hv⟩
    | none =>
      refine ⟨p.symbols[s].kind.default, by simp [hs], ?_⟩
      simp [kindOf, hs]
  · obtain ⟨c, hc, ht⟩ : ∃ c ∈ p.constraints, c.target? = some s := by
      simpa [mem_free, hs] using hfree
    have hkind := hp.intTargets c hc s ht
    have hholds := holds_of_complete hp h c hc
    cases c with
    | define t d =>
      obtain rfl : t = s := by simpa [Constraint.target?] using ht
      obtain ⟨n, -, hn⟩ := hholds
      exact ⟨.int n, hn, hkind.symm⟩
    | assert f => simp [Constraint.target?] at ht

/-- A model that meets every constraint is found from its values of the free symbols. -/
theorem complete_of_holds {r : Model} (hp : p.WellFormed) (hr : ∀ c ∈ p.constraints, c.Holds r)
    (hf : ∀ s ∈ p.free, (p.fill f).get? s = r.get? s) :
    ∃ m, p.complete f = some m ∧ ∀ s < p.symbols.length, m.get? s = r.get? s :=
  foldlM_enforce_of_holds hp.inRange hp.freshTargets hp.noCycles hr
    fun s hs ht => hf s (mem_free.2 ⟨hs, ht⟩)

/-- A solution is complete: completing it changes nothing. -/
theorem Solves.complete_eq (h : p.Solves m) : p.complete m = some m := by
  have hfill : p.fill m = m := by
    refine fill_of_ne_none fun s hs => ?_
    obtain ⟨v, hv, -⟩ := h.kinds s hs
    simp [hv]
  rw [complete, hfill]
  exact foldlM_enforce_self h.holds

theorem target_lt (hp : p.WellFormed) {c : Constraint} (hc : c ∈ p.constraints)
    (ht : c.target? = some s) : s < p.symbols.length :=
  hp.inRange c hc s (Constraint.mem_symbols_of_target? ht)

/-- Symbols that the problem does not have are left as they are. -/
theorem get?_of_complete_of_le (hp : p.WellFormed) (h : p.complete f = some m)
    (hs : p.symbols.length ≤ s) : m.get? s = f.get? s := by
  have htarget : ∀ c ∈ p.constraints, c.target? ≠ some s := by
    intro c hc ht
    have hlt := target_lt hp hc ht
    omega
  rw [get?_of_foldlM_enforce h htarget, get?_fill, List.getElem?_eq_none hs]
  simp

/-- Completion decides whether the values `f` of the free symbols, with defaults for those that are
missing, belong to a solution. If it succeeds, it gives such a solution, in which every constraint holds
at the end and which is its own completion. If there is one, it succeeds and finds it. -/
theorem complete_decides (hp : p.WellFormed)
    (hf : ∀ s ∈ p.free, ∀ v, f.get? s = some v → v.kind = p.kindOf s) :
    (∀ m, p.complete f = some m → p.Adopts f m ∧ p.Solves m ∧ p.complete m = some m) ∧
    ∀ r, p.Adopts f r → (∀ c ∈ p.constraints, c.Holds r) →
      ∃ m, p.complete f = some m ∧ (∀ s < p.symbols.length, m.get? s = r.get? s) ∧
        ∀ s, p.symbols.length ≤ s → m.get? s = f.get? s := by
  have hfilled : ∀ s ∈ p.free, (p.fill f).get? s = some ((f.get? s).getD (p.kindOf s).default) :=
    fun s hs => get?_fill_of_lt (mem_free.1 hs).1
  constructor
  · intro m hm
    have hsolves : p.Solves m := solves_of_complete hp hf hm
    refine ⟨fun s hs => ?_, hsolves, hsolves.complete_eq⟩
    rw [get?_of_complete hm hs, hfilled s hs]
  · intro r hr hholds
    obtain ⟨m, hm, hagree⟩ := complete_of_holds hp hholds fun s hs => by rw [hfilled s hs, hr s hs]
    exact ⟨m, hm, hagree, fun s => get?_of_complete_of_le hp hm⟩

end Problem

/-- A parcel costs three for each unit of weight, which must be less than ten unless it is sent by
express. -/
def parcel : Problem where
  symbols := [⟨"weight", .int, .initial "weight"⟩, ⟨"express", .bool, .initial "express"⟩,
    ⟨"cost", .int, .version "cost" 1⟩]
  constraints := [.define 2 (.binary .mul (.sym 0) (.const 3)),
    .assert (.any [.sym 1, .cmp .lt (.sym 2) (.const 10)])]

theorem wellFormed_parcel : parcel.WellFormed where
  inRange := by decide
  intTargets := by simp [parcel, Constraint.target?, Problem.kindOf]
  freshTargets := by
    simp [parcel, Constraint.target?, Constraint.symbols, Definition.symbols, Definition.operands,
      Term.symbols]
  noCycles := by simp [parcel, Definition.symbols, Definition.operands, Term.symbols]

theorem kinds_parcel {n : Int64} : ∀ s ∈ parcel.free, ∀ v,
    Model.get? ⟨#[some (.int n)]⟩ s = some v → v.kind = parcel.kindOf s := by
  have hfree : parcel.free = [0, 1] := by decide
  intro s hs v hv
  simp only [hfree, List.mem_cons, List.not_mem_nil, or_false] at hs
  rcases hs with rfl | rfl
  · cases hv
    rfl
  · cases hv

/-- Where only a weight is given the parcel is not express: three is not too heavy, and four is. -/
theorem complete_decides_parcel : parcel.WellFormed ∧
    (∃ m, parcel.complete ⟨#[some (.int 3)]⟩ = some m ∧ parcel.Solves m ∧
      parcel.complete m = some m ∧ m.get? 1 = some (.bool false) ∧ m.get? 2 = some (.int 9)) ∧
    ¬ ∃ r, parcel.Adopts ⟨#[some (.int 4)]⟩ r ∧ parcel.Solves r := by
  obtain ⟨hsound, -⟩ := Problem.complete_decides wellFormed_parcel (kinds_parcel (n := 3))
  obtain ⟨-, hfinds⟩ := Problem.complete_decides wellFormed_parcel (kinds_parcel (n := 4))
  refine ⟨wellFormed_parcel, ?_, ?_⟩
  · have hm : parcel.complete ⟨#[some (.int 3)]⟩ =
        some ⟨#[some (.int 3), some (.bool false), some (.int 9)]⟩ := by decide +kernel
    obtain ⟨-, hsolves, hself⟩ := hsound _ hm
    exact ⟨_, hm, hsolves, hself, rfl, rfl⟩
  · rintro ⟨r, hadopts, hsolves⟩
    obtain ⟨m, hm, -⟩ := hfinds r hadopts hsolves.holds
    have hnone : parcel.complete ⟨#[some (.int 4)]⟩ = none := by decide +kernel
    rw [hnone] at hm
    cases hm

end Pathwise
