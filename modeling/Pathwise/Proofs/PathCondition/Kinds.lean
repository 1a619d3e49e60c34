import Mathlib.Data.List.Basic
import Pathwise.Proofs.Trace
import Pathwise.Proofs.PathCondition.Growth

/-!
The kinds at which a path uses its variables.

A variable is used as an integer where arithmetic reads it and where it is written, and as a boolean
where it stands as a condition. The slots of a condition record the uses so far (`Records`). Encoding
records the uses of what it encodes, and it fails only at a variable that is used at both kinds
(`Settles`). This is said of each form of expression, action and edge, and put together along a path by
`Settles.bind`.
-/

namespace Pathwise

/-- A variable and a kind at which it is used. -/
abbrev KindUse := String × Kind

/-- The variable is used both as an integer and as a boolean. -/
def IsMixed (us : List KindUse) (x : String) : Prop :=
  (x, .int) ∈ us ∧ (x, .bool) ∈ us

def Arith.kindUses (a : Arith) : List KindUse :=
  a.occurrences.map (·, .int)

def Cond.kindUses : Cond → List KindUse
  | const _ => []
  | var x => [(x, .bool)]
  | not c => c.kindUses
  | logic _ a b => a.kindUses ++ b.kindUses
  | cmp _ a b => a.kindUses ++ b.kindUses

def Action.kindUses : Action → List KindUse
  | skip => []
  | assign x e => e.kindUses ++ [(x, .int)]
  | input x => [(x, .int)]
  | print e => e.kindUses

def Edge.kindUses (e : Edge) : List KindUse :=
  e.guard.kindUses ++ e.action.kindUses

namespace FlowGraph

/-- The uses of variables in the guards and actions of the edges between two nodes. -/
def kindUsesOn (g : FlowGraph) (a : Arc) : List KindUse :=
  (g.edgesBetween a.source a.target).flatMap (·.kindUses)

/-- The uses of variables along a sequence of nodes. -/
def kindUses (g : FlowGraph) (w : Path) : List KindUse :=
  w.arcs.flatMap g.kindUsesOn

end FlowGraph

theorem IsMixed.mono {us vs : List KindUse} {x : String} (h : IsMixed us x) (hsub : us ⊆ vs) :
    IsMixed vs x :=
  ⟨hsub h.1, hsub h.2⟩

theorem isMixed_of_ne {us : List KindUse} {x : String} {k k' : Kind} (hk : (x, k) ∈ us)
    (hk' : (x, k') ∈ us) (hne : k ≠ k') : IsMixed us x := by
  cases k <;> cases k'
  · exact absurd rfl hne
  · exact ⟨hk, hk'⟩
  · exact ⟨hk', hk⟩
  · exact absurd rfl hne

namespace PathCondition

/-! ## Recorded uses -/

/-- The slots of the condition are those of the variables in `us`, at the kinds given there. -/
def Records (c : PathCondition) (us : List KindUse) : Prop :=
  ∀ x k, (c.slots.lookup x).map (·.kind) = some k ↔ (x, k) ∈ us

variable {c c' : PathCondition} {us vs : List KindUse} {x : String} {k : Kind}

theorem Records.kind_unique {k' : Kind} (hc : c.Records us) (hk : (x, k) ∈ us)
    (hk' : (x, k') ∈ us) : k = k' :=
  Option.some.inj (((hc x k).2 hk).symm.trans ((hc x k').2 hk'))

theorem Records.not_isMixed (hc : c.Records us) (x : String) : ¬ IsMixed us x := by
  rintro ⟨hint, hbool⟩
  cases hc.kind_unique hint hbool

theorem Records.mem_of_lookup {s : Slot} (hc : c.Records us) (h : c.slots.lookup x = some s) :
    (x, s.kind) ∈ us :=
  (hc x s.kind).1 (by rw [h]; rfl)

theorem Records.use (hc : c.Records us) (hx : ∀ k', (x, k') ∈ us → k' = k)
    (hslots : ∀ y, (c'.slots.lookup y).map (·.kind) =
      if y = x then some k else (c.slots.lookup y).map (·.kind)) :
    c'.Records (us ++ [(x, k)]) := by
  intro y k'
  rw [hslots y, List.mem_append, List.mem_singleton, Prod.mk.injEq]
  by_cases hy : y = x
  · subst hy
    rw [if_pos rfl, Option.some.injEq]
    constructor
    · rintro rfl
      exact .inr ⟨rfl, rfl⟩
    · rintro (hmem | ⟨-, rfl⟩)
      · exact (hx k' hmem).symm
      · rfl
  · simp [hy, hc y k']

/-- A slot is found at the kind that is asked for, unless the variable was used at the other one. -/
theorem slot?_cases (hc : c.Records us) (x : String) (k : Kind) :
    (c.slot? x k = .ok (c.slots.lookup x) ∧ ∀ k', (x, k') ∈ us → k' = k) ∨
      (c.slot? x k = .error (.mixedKinds x) ∧ IsMixed (us ++ [(x, k)]) x) := by
  unfold slot?
  cases hl : c.slots.lookup x with
  | none =>
    refine .inl ⟨rfl, fun k' hk' => ?_⟩
    have hsome := (hc x k').2 hk'
    simp [hl] at hsome
  | some s =>
    have hs := hc.mem_of_lookup hl
    by_cases hk : s.kind = k
    · exact .inl ⟨if_pos hk, fun k' hk' => (hc.kind_unique hk' hs).trans hk⟩
    · exact .inr ⟨if_neg hk, isMixed_of_ne (List.mem_append_left _ hs) (by simp) hk⟩

/-! ## Results of encoding -/

/-- What comes of encoding where the variables are used as in `us`: a condition that records these uses,
or an error about one of them, or another error for which there is a reason. `π` finds the condition in
the result. -/
def Settles {α : Type} (reason : PathError → Prop) (π : α → PathCondition) (us : List KindUse) :
    Except PathError α → Prop
  | .ok a => (π a).Records us
  | .error (.mixedKinds x) => IsMixed us x
  | .error e => reason e

variable {reason : PathError → Prop} {α β : Type}

/-- What follows may use more variables. -/
theorem Settles.bind {π : α → PathCondition} {ρ : β → PathCondition} {r : Except PathError α}
    {f : α → Except PathError β} (hr : Settles reason π us r) (hsub : us ⊆ vs)
    (hf : ∀ a, (π a).Records us → Settles reason ρ vs (f a)) : Settles reason ρ vs (r >>= f) := by
  match r, hr with
  | .ok a, hr => exact hf a hr
  | .error (.mixedKinds x), hr => exact hr.mono hsub
  | .error .notFromEntry, hr => exact hr
  | .error .notToExit, hr => exact hr
  | .error (.noEdge a), hr => exact hr

/-- What uses no variable leaves the recorded uses as they are. -/
theorem settles_unused {π : α → PathCondition} {a : α} (ha : (π a).Records us) :
    Settles reason π (us ++ []) (.ok a) := by
  rw [List.append_nil]
  exact ha

theorem settles_read (hc : c.Records us) (x : String) (k : Kind) :
    Settles reason (·.2) (us ++ [(x, k)]) (c.read x k) := by
  unfold read
  rcases slot?_cases hc x k with ⟨hs, hk⟩ | ⟨hs, hmixed⟩
  · rw [hs]
    cases hl : c.slots.lookup x with
    | none =>
      have hinit : (c.initialized x k).Records (us ++ [(x, k)]) := hc.use hk fun y => by
        rw [lookup_initialized]
        split <;> rfl
      exact hinit
    | some s =>
      have hsame : c.Records (us ++ [(x, k)]) := hc.use hk fun y => by
        split
        · rename_i hy
          rw [hy, hl, ← hk s.kind (hc.mem_of_lookup hl)]
          rfl
        · rfl
      exact hsame
  · rw [hs]
    exact hmixed

theorem slots_required (op : ArithOp) (t : Term) : (c.required op t).slots = c.slots := by
  unfold required
  split <;> rfl

theorem settles_arith (a : Arith) (hc : c.Records us) :
    Settles reason (·.2) (us ++ a.kindUses) (c.arith a) := by
  induction a generalizing c us with
  | const n => exact settles_unused hc
  | var x => exact (settles_read hc x .int).bind (List.Subset.refl _) fun _ h => h
  | unary op a ih => exact (ih hc).bind (List.Subset.refl _) fun _ h => h
  | binary op a b iha ihb =>
    have huses : us ++ (Arith.binary op a b).kindUses = us ++ a.kindUses ++ b.kindUses := by
      simp [Arith.kindUses, Arith.occurrences]
    rw [huses]
    refine (iha hc).bind (List.subset_append_left _ _) fun _ ha => ?_
    refine (ihb ha).bind (List.Subset.refl _) fun r hb => ?_
    have hslots := slots_required (c := r.2) op r.1
    show Records ((r.2.required op r.1).result _).2 _
    intro x k
    rw [← hb x k, ← hslots]
    rfl

theorem settles_cond (q : Cond) (hc : c.Records us) :
    Settles reason (·.2) (us ++ q.kindUses) (c.cond q) := by
  induction q generalizing c us with
  | const b => exact settles_unused hc
  | var x => exact (settles_read hc x .bool).bind (List.Subset.refl _) fun _ h => h
  | not q ih => exact (ih hc).bind (List.Subset.refl _) fun _ h => h
  | logic op q r ihq ihr =>
    rw [Cond.kindUses, ← List.append_assoc]
    refine (ihq hc).bind (List.subset_append_left _ _) fun _ hq => ?_
    exact (ihr hq).bind (List.Subset.refl _) fun _ h => h
  | cmp op a b =>
    rw [Cond.kindUses, ← List.append_assoc]
    refine (settles_arith a hc).bind (List.subset_append_left _ _) fun _ ha => ?_
    exact (settles_arith b ha).bind (List.Subset.refl _) fun _ h => h

/-! ## Actions, edges and paths -/

/-- A variable that is about to be written was not used as a boolean. -/
theorem versions_cases (hc : c.Records us) (x : String) :
    (∃ n, c.versions x = .ok n ∧ ∀ k, (x, k) ∈ us → k = .int) ∨
      (c.versions x = .error (.mixedKinds x) ∧ IsMixed (us ++ [(x, .int)]) x) := by
  unfold versions
  rcases slot?_cases hc x .int with ⟨hs, hk⟩ | ⟨hs, hmixed⟩
  · rw [hs]
    exact .inl ⟨_, rfl, hk⟩
  · rw [hs]
    exact .inr ⟨rfl, hmixed⟩

theorem settles_write {f : Nat → PathCondition} (hc : c.Records us) (x : String)
    (hslots : ∀ n y, ((f n).slots.lookup y).map (·.kind) =
      if y = x then some .int else (c.slots.lookup y).map (·.kind)) :
    Settles reason id (us ++ [(x, .int)]) (c.versions x >>= fun n => .ok (f n)) := by
  rcases versions_cases hc x with ⟨n, hn, hk⟩ | ⟨hn, hmixed⟩
  · rw [hn]
    exact hc.use hk (hslots n)
  · rw [hn]
    exact hmixed

theorem settles_action (a : Action) (hc : c.Records us) :
    Settles reason id (us ++ a.kindUses) (c.action a) := by
  cases a with
  | skip => exact settles_unused hc
  | assign x e =>
    rw [Action.kindUses, ← List.append_assoc]
    refine (settles_arith e hc).bind (List.subset_append_left _ _) fun r hr => ?_
    refine settles_write (f := fun n => r.2.assigned x (n + 1) r.1) hr x fun n y => ?_
    rw [lookup_assigned]
    split <;> rfl
  | input x =>
    refine settles_write (f := fun n => c.received x (n + 1)) hc x fun n y => ?_
    rw [lookup_received]
    split <;> rfl
  | print e => exact (settles_arith e hc).bind (List.Subset.refl _) fun _ h => h

theorem settles_edge (e : Edge) (hc : c.Records us) :
    Settles reason id (us ++ e.kindUses) (c.edge e) := by
  rw [Edge.kindUses, ← List.append_assoc]
  unfold edge
  split
  · rename_i htrue
    have hnone : e.guard.kindUses = [] := by
      cases hg : e.guard <;> simp_all [Cond.isTrue, Cond.kindUses]
    rw [hnone, List.append_nil]
    exact settles_action e.action hc
  · refine (settles_cond e.guard hc).bind (List.subset_append_left _ _) fun r hr => ?_
    exact settles_action (c := r.2.assert r.1) e.action hr

theorem settles_guards (es : List Edge) (hc : c.Records us) :
    Settles reason (·.2) (us ++ es.flatMap (·.guard.kindUses)) (c.guards es) := by
  induction es generalizing c us with
  | nil => exact settles_unused hc
  | cons e es ih =>
    rw [List.flatMap_cons, ← List.append_assoc]
    refine (settles_cond e.guard hc).bind (List.subset_append_left _ _) fun _ he => ?_
    exact (ih he).bind (List.Subset.refl _) fun _ h => h

/-- Edges that do nothing use variables in their guards only. -/
theorem flatMap_kindUses_of_skip {es : List Edge} (h : ∀ e ∈ es, e.action = .skip) :
    es.flatMap (·.kindUses) = es.flatMap (·.guard.kindUses) :=
  List.flatMap_congr fun e he => by simp [Edge.kindUses, Action.kindUses, h e he]

variable {g : FlowGraph}

theorem settles_step {a : Arc} (hg : ∀ n, Fan n (g.outgoing n))
    (hgap : g.edgesBetween a.source a.target = [] → reason (.noEdge a)) (hc : c.Records us) :
    Settles reason id (us ++ g.kindUsesOn a) (step g c a) := by
  have hlink := FlowGraph.link_edgesBetween (hg a.source) a.target
  unfold step FlowGraph.kindUsesOn
  generalize g.edgesBetween a.source a.target = es at hlink hgap
  cases hlink with
  | none => exact hgap rfl
  | single e _ => simpa using settles_edge e hc
  | double q w₁ w₂ _ =>
    simp only [List.all_cons, List.all_nil, Action.isSkip, Bool.and_self, ↓reduceIte]
    rw [flatMap_kindUses_of_skip (by simp)]
    exact (settles_guards _ hc).bind (List.Subset.refl _) fun _ h => h

theorem settles_arcs {as : List Arc} (hg : ∀ n, Fan n (g.outgoing n))
    (hgap : ∀ a ∈ as, g.edgesBetween a.source a.target = [] → reason (.noEdge a)) (hc : c.Records us) :
    Settles reason id (us ++ as.flatMap g.kindUsesOn) (as.foldlM (step g) c) := by
  induction as generalizing c us with
  | nil => exact settles_unused hc
  | cons a as ih =>
    obtain ⟨ha, has⟩ := List.forall_mem_cons.1 hgap
    rw [List.foldlM_cons, List.flatMap_cons, ← List.append_assoc]
    exact (settles_step hg ha hc).bind (List.subset_append_left _ _) fun c' hc' => ih has hc'

theorem edgesBetween_ne_nil_of_foldlM {as : List Arc} (h : as.foldlM (step g) c = .ok c') :
    ∀ a ∈ as, g.edgesBetween a.source a.target ≠ [] := by
  induction as generalizing c with
  | nil => simp
  | cons a as ih =>
    rw [List.foldlM_cons] at h
    obtain ⟨c₁, hstep, hrest⟩ := bind_eq_ok.1 h
    refine List.forall_mem_cons.2 ⟨fun hnil => ?_, ih hrest⟩
    simp [step, hnil] at hstep

end PathCondition

/-! ## The errors of a path -/

/-- What the error says of the path is so. -/
def PathError.Applies (g : FlowGraph) (w : Path) : PathError → Prop
  | notFromEntry => w.head? ≠ some .entry
  | notToExit => w.getLast? ≠ some .exit
  | noEdge a => a ∈ w.arcs ∧ g.edgesBetween a.source a.target = []
  | mixedKinds x => IsMixed (g.kindUses w) x

namespace FlowGraph

variable {g : FlowGraph} {w : Path}

theorem settles_pathCondition (hg : ∀ n, Fan n (g.outgoing n)) (w : Path) :
    PathCondition.Settles (PathError.Applies g w) id (g.kindUses w) (g.pathCondition w) := by
  unfold pathCondition
  split
  · assumption
  split
  · assumption
  have hempty : PathCondition.Records {} [] := fun x k => by simp
  exact PathCondition.settles_arcs hg (fun a ha hnone => ⟨ha, hnone⟩) hempty

theorem applies_of_pathCondition {e : PathError} (hg : ∀ n, Fan n (g.outgoing n))
    (h : g.pathCondition w = .error e) : e.Applies g w := by
  have hsettles := settles_pathCondition hg w
  rw [h] at hsettles
  cases e <;> exact hsettles

theorem isPathFrom_of_pathCondition {c : PathCondition} (h : g.pathCondition w = .ok c) :
    g.IsPathFrom .entry .exit w := by
  obtain ⟨hhead, hlast, hfold⟩ := PathCondition.pathCondition_eq_ok h
  exact ⟨hhead, hlast, isPath_iff.2 (PathCondition.edgesBetween_ne_nil_of_foldlM hfold)⟩

theorem not_isMixed_of_pathCondition {c : PathCondition} (hg : ∀ n, Fan n (g.outgoing n))
    (h : g.pathCondition w = .ok c) (x : String) : ¬ IsMixed (g.kindUses w) x := by
  have hsettles := settles_pathCondition hg w
  rw [h] at hsettles
  exact PathCondition.Records.not_isMixed hsettles x

/-- All that a path from the entry to the exit can lack is a kind for each variable. -/
theorem IsPathFrom.eq_mixedKinds {e : PathError} (hw : g.IsPathFrom .entry .exit w)
    (happ : e.Applies g w) : ∃ x, e = .mixedKinds x ∧ IsMixed (g.kindUses w) x := by
  cases e with
  | notFromEntry => exact absurd hw.head happ
  | notToExit => exact absurd hw.last happ
  | noEdge a => exact absurd happ.2 (isPath_iff.1 hw.follows a happ.1)
  | mixedKinds x => exact ⟨x, rfl, happ⟩

end FlowGraph

end Pathwise
