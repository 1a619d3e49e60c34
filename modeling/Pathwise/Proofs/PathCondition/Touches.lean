import Mathlib.Data.List.Basic
import Pathwise.FlowGraph.Basic

/-!
What the edges along a path do with the variables.

A variable is read, assigned or receives an input; `FlowGraph.touches` lists this in the order in which
it happens. A variable is exposed if it is read and has not been written before, so that the path
depends on its initial value. `ReadsFirst` says that a list has the exposed variables in the order in
which they are read, and the lemmas about it follow a list of touches that grows at its end.
-/

namespace Pathwise

/-- What is done with a variable. -/
inductive Touch
  | read (x : String)
  | assign (x : String)
  | receive (x : String)
  deriving DecidableEq

namespace Touch

def var : Touch → String
  | read x | assign x | receive x => x

def written? : Touch → Option String
  | read _ => none
  | assign x | receive x => some x

def received? : Touch → Option String
  | read _ | assign _ => none
  | receive x => some x

theorem var_of_written? {t : Touch} {x : String} (h : t.written? = some x) : t.var = x := by
  cases t with
  | read y => cases h
  | assign y => exact Option.some.inj h
  | receive y => exact Option.some.inj h

theorem eq_read_of_var {t : Touch} {x : String} (h : t.var = x) (hw : t.written? ≠ some x) :
    t = read x := by
  subst h
  cases t with
  | read y => rfl
  | assign y => exact absurd rfl hw
  | receive y => exact absurd rfl hw

end Touch

/-! ## Touches along a path -/

/-- The right-hand side of an assignment is read before the variable is written. -/
def Action.touches : Action → List Touch
  | skip => []
  | assign x e => e.occurrences.map .read ++ [.assign x]
  | input x => [.receive x]
  | print e => e.occurrences.map .read

def Edge.touches (e : Edge) : List Touch :=
  e.guard.occurrences.map .read ++ e.action.touches

namespace FlowGraph

def touchesOn (g : FlowGraph) (a : Arc) : List Touch :=
  (g.edgesBetween a.source a.target).flatMap (·.touches)

/-- What the edges between the nodes of the path do with the variables. Of edges side by side all are
counted. -/
def touches (g : FlowGraph) (p : Path) : List Touch :=
  p.arcs.flatMap g.touchesOn

/-- The variables that the edges between two nodes write. -/
def writtenOn (g : FlowGraph) (a : Arc) : List String :=
  (g.edgesBetween a.source a.target).filterMap (·.action.defined?)

/-- The variables that the edges along the path write, in order. -/
def written (g : FlowGraph) (p : Path) : List String :=
  p.arcs.flatMap g.writtenOn

end FlowGraph

theorem not_exists_written?_reads (xs : List String) (x : String) :
    ¬ ∃ t ∈ xs.map Touch.read, t.written? = some x := by
  rintro ⟨t, ht, hx⟩
  obtain ⟨y, -, rfl⟩ := List.mem_map.1 ht
  cases hx

theorem Edge.exists_written?_iff {e : Edge} {x : String} :
    (∃ t ∈ e.touches, t.written? = some x) ↔ e.action.defined? = some x := by
  have hreads := fun xs => not_exists_written?_reads xs x
  rw [touches]
  simp only [List.mem_append, or_and_right, exists_or, hreads, false_or]
  cases e.action with
  | skip => simp [Action.touches, Action.defined?]
  | assign y a =>
    simp only [Action.touches, List.mem_append, or_and_right, exists_or, hreads, false_or]
    simp [Touch.written?, Action.defined?]
  | input y => simp [Action.touches, Touch.written?, Action.defined?]
  | print a => simpa only [Action.touches, Action.defined?, reduceCtorEq, iff_false] using hreads _

theorem FlowGraph.mem_written {g : FlowGraph} {p : Path} {x : String} :
    x ∈ g.written p ↔ ∃ t ∈ g.touches p, t.written? = some x := by
  simp only [written, writtenOn, touches, touchesOn, List.mem_flatMap, List.mem_filterMap,
    ← Edge.exists_written?_iff]
  constructor
  · rintro ⟨a, ha, e, he, t, ht, hx⟩
    exact ⟨t, ⟨a, ha, e, he, ht⟩, hx⟩
  · rintro ⟨t, ⟨a, ha, e, he, ht⟩, hx⟩
    exact ⟨a, ha, e, he, t, ht, hx⟩

/-! ## Reads before any write -/

/-- The variable is read, and not written before. -/
def Exposed (ts : List Touch) (x : String) : Prop :=
  ∃ before after, ts = before ++ .read x :: after ∧ ∀ t ∈ before, t.written? ≠ some x

variable {ts : List Touch} {xs : List String} {t : Touch} {x : String}

theorem Exposed.mem (h : Exposed ts x) : .read x ∈ ts := by
  obtain ⟨before, after, rfl, -⟩ := h
  simp

theorem exposed_of_mem (h : .read x ∈ ts) (hw : ∀ t ∈ ts, t.written? ≠ some x) : Exposed ts x := by
  obtain ⟨before, after, rfl⟩ := List.append_of_mem h
  exact ⟨before, after, rfl, fun t ht => hw t (List.mem_append_left _ ht)⟩

theorem exposed_append_singleton : Exposed (ts ++ [t]) x ↔
    Exposed ts x ∨ (t = .read x ∧ ∀ u ∈ ts, u.written? ≠ some x) := by
  constructor
  · rintro ⟨before, after, heq, hb⟩
    rcases List.eq_nil_or_concat' after with rfl | ⟨after, u, rfl⟩
    · obtain ⟨rfl, ht⟩ := List.append_inj' heq rfl
      exact .inr ⟨List.singleton_inj.1 ht, hb⟩
    · rw [← List.cons_append, ← List.append_assoc] at heq
      obtain ⟨rfl, -⟩ := List.append_inj' heq rfl
      exact .inl ⟨before, after, rfl, hb⟩
  · rintro (⟨before, after, rfl, hb⟩ | ⟨rfl, hb⟩)
    · exact ⟨before, after ++ [t], by simp, hb⟩
    · exact ⟨ts, [], rfl, hb⟩

/-- `xs` has the variables that are read before any write, in the order of their first reads. The order
is strict, so none of them is listed twice. -/
structure ReadsFirst (ts : List Touch) (xs : List String) : Prop where
  mem_iff : ∀ x, x ∈ xs ↔ Exposed ts x
  ordered : xs.Pairwise fun x y => ts.idxOf (.read x) < ts.idxOf (.read y)

namespace ReadsFirst

theorem nil : ReadsFirst [] [] :=
  ⟨fun x => by simp [Exposed], List.Pairwise.nil⟩

theorem ordered_append (h : ReadsFirst ts xs) (us : List Touch) :
    xs.Pairwise fun x y => (ts ++ us).idxOf (.read x) < (ts ++ us).idxOf (.read y) := by
  refine h.ordered.imp_of_mem fun {x y} hx hy hlt => ?_
  rw [List.idxOf_append_of_mem ((h.mem_iff x).1 hx).mem,
    List.idxOf_append_of_mem ((h.mem_iff y).1 hy).mem]
  exact hlt

/-- A touch that is not the first of a variable by reading it changes nothing. -/
theorem keep (h : ReadsFirst ts xs) (ht : ∀ x, t = .read x → ∃ u ∈ ts, u.var = x) :
    ReadsFirst (ts ++ [t]) xs := by
  refine ⟨fun x => ?_, h.ordered_append [t]⟩
  rw [exposed_append_singleton, h.mem_iff x]
  refine ⟨.inl, ?_⟩
  rintro (hx | ⟨rfl, hw⟩)
  · exact hx
  · obtain ⟨u, hu, hux⟩ := ht x rfl
    obtain rfl := Touch.eq_read_of_var hux (hw u hu)
    exact exposed_of_mem hu hw

theorem snoc (h : ReadsFirst ts xs) (hx : ∀ u ∈ ts, u.var ≠ x) :
    ReadsFirst (ts ++ [.read x]) (xs ++ [x]) := by
  have hread : .read x ∉ ts := fun hmem => hx _ hmem rfl
  constructor
  · intro y
    rw [exposed_append_singleton, List.mem_append, List.mem_singleton, h.mem_iff y]
    refine or_congr_right ⟨?_, fun hy => (Touch.read.inj hy.1).symm⟩
    rintro rfl
    exact ⟨rfl, fun u hu hw => hx u hu (Touch.var_of_written? hw)⟩
  · refine List.pairwise_append.2 ⟨h.ordered_append _, List.pairwise_singleton _ _, ?_⟩
    intro y hy z hz
    obtain rfl := List.mem_singleton.1 hz
    have hmem : .read y ∈ ts := ((h.mem_iff y).1 hy).mem
    rw [List.idxOf_append_of_mem hmem, List.idxOf_append_of_notMem hread]
    have hlt := List.idxOf_lt_length_of_mem hmem
    omega

end ReadsFirst

end Pathwise
