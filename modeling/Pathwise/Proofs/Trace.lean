import Pathwise.Proofs.Wiring

/-!
The paths of a flow graph are the traces of its program.

A trace is read off the text alone: a sequence goes through one part after the other, a choice through
one of its arms, and a loop comes back to its label after every round. A layout never sees the whole of
a program, so both inclusions are stated in front of what follows: a trace of a part leads from its
first node to the node `k` behind it (`IsTrace.isPathFrom`), and a path from its first node to the exit
begins with a trace and goes on from `k` (`exists_isTrace_of_isPathFrom`).
-/

namespace Pathwise

/-- Control may go through the labels `t`, whatever the conditions come to. -/
def Program.IsTrace : Program → List Label → Prop
  | skip, t => t = []
  | assign l _ _, t | input l _, t | print l _, t => t = [l]
  | seq a b, t => ∃ u v, a.IsTrace u ∧ b.IsTrace v ∧ t = u ++ v
  | branch l _ a b, t => ∃ u, (a.IsTrace u ∨ b.IsTrace u) ∧ t = l :: u
  | loop l _ body, t =>
    ∃ rounds : List (List Label),
      (∀ u ∈ rounds, body.IsTrace u) ∧ t = rounds.flatMap (l :: ·) ++ [l]

theorem length_arcs (n : Node) (u : Path) : (Path.arcs (n :: u)).length = u.length := by
  induction u generalizing n with
  | nil => rfl
  | cons m u ih => rw [Path.arcs, List.length_cons, List.length_cons, ih]

namespace FlowGraph

variable {g : FlowGraph} {a b c : Node} {v w : Path}

/-! ## Paths between two nodes -/

/-- `w` follows the edges of the graph from `a` to `b`. -/
structure IsPathFrom (g : FlowGraph) (a b : Node) (w : Path) : Prop where
  head : w.head? = some a
  last : w.getLast? = some b
  follows : g.isPath w = true

theorem mem_successors : b ∈ g.successors a ↔ ∃ e ∈ g.outgoing a, e.target = b := by
  simp [successors]

theorem isPath_iff :
    g.isPath w = true ↔ ∀ a ∈ w.arcs, g.edgesBetween a.source a.target ≠ [] := by
  simp [isPath]

theorem isPath_cons_cons :
    g.isPath (a :: b :: w) = true ↔ b ∈ g.successors a ∧ g.isPath (b :: w) = true := by
  simp [isPath, Path.arcs, edgesBetween, mem_successors]

theorem isPath_append {n : Node} :
    g.isPath (v ++ n :: w) = true ↔ g.isPath (v ++ [n]) = true ∧ g.isPath (n :: w) = true := by
  induction v with
  | nil => simp [isPath, Path.arcs]
  | cons a v ih =>
    cases v with
    | nil =>
      simp only [List.cons_append, List.nil_append, isPath_cons_cons]
      simp [isPath, Path.arcs]
    | cons b v =>
      simp only [List.cons_append, isPath_cons_cons] at ih ⊢
      rw [ih, and_assoc]

theorem IsPathFrom.single (a : Node) : g.IsPathFrom a a [a] := ⟨rfl, rfl, rfl⟩

theorem IsPathFrom.eq_cons (hw : g.IsPathFrom a b w) : ∃ t, w = a :: t :=
  List.head?_eq_some_iff.1 hw.head

theorem IsPathFrom.cons (hab : b ∈ g.successors a) (hw : g.IsPathFrom b c w) :
    g.IsPathFrom a c (a :: w) := by
  obtain ⟨v, rfl⟩ := hw.eq_cons
  exact ⟨rfl, by simpa using hw.last, isPath_cons_cons.2 ⟨hab, hw.follows⟩⟩

theorem IsPathFrom.eq_concat (hw : g.IsPathFrom a b w) : ∃ s, w = s ++ [b] :=
  List.getLast?_eq_some_iff.1 hw.last

theorem IsPathFrom.trans (hv : g.IsPathFrom a b v) (hw : g.IsPathFrom b c (b :: w)) :
    g.IsPathFrom a c (v ++ w) := by
  obtain ⟨s, rfl⟩ := hv.eq_concat
  rw [List.append_assoc, List.singleton_append]
  refine ⟨?_, by simpa using hw.last, isPath_append.2 ⟨hv.follows, hw.follows⟩⟩
  have hhead := hv.head
  cases s <;> exact hhead

/-- A path to another node takes a step. -/
theorem IsPathFrom.uncons (hw : g.IsPathFrom a c w) (hac : a ≠ c) :
    ∃ b ∈ g.successors a, ∃ v, w = a :: v ∧ g.IsPathFrom b c v := by
  obtain ⟨hhead, hlast, hfollows⟩ := hw
  match w with
  | [] => cases hhead
  | [a'] =>
    obtain rfl : a' = a := by simpa using hhead
    exact absurd (by simpa using hlast) hac
  | a' :: b :: v =>
    obtain rfl : a' = a := by simpa using hhead
    obtain ⟨hab, hv⟩ := isPath_cons_cons.1 hfollows
    exact ⟨b, hab, b :: v, rfl, rfl, by simpa using hlast, hv⟩

/-- A path through `n` comes to `n` and goes on from it. -/
theorem IsPathFrom.split {n : Node} (h : g.IsPathFrom a c (v ++ n :: w)) :
    g.IsPathFrom a n (v ++ [n]) ∧ g.IsPathFrom n c (n :: w) := by
  obtain ⟨hv, hw⟩ := isPath_append.1 h.follows
  refine ⟨⟨?_, by simp, hv⟩, ⟨rfl, ?_, hw⟩⟩
  · have hhead := h.head
    cases v <;> exact hhead
  · simpa [List.getLast?_append] using h.last

/-- A path can be cut short so that it meets no node twice. -/
theorem IsPathFrom.exists_nodup (hw : g.IsPathFrom a b w) :
    ∃ v, g.IsPathFrom a b v ∧ v.Nodup ∧ v ⊆ w := by
  induction w generalizing a with
  | nil => cases hw.head
  | cons a' w ih =>
    obtain rfl : a' = a := by simpa using hw.head
    by_cases hab : a' = b
    · subst hab
      exact ⟨[a'], .single a', by simp, by simp⟩
    · obtain ⟨c, hc, w', heq, hw'⟩ := hw.uncons hab
      obtain rfl := (List.cons.inj heq).2
      obtain ⟨v, hv, hnodup, hsub⟩ := ih hw'
      by_cases ha : a' ∈ v
      -- The way comes back to its first node: only what follows the return is needed.
      · obtain ⟨s, t, rfl⟩ := List.append_of_mem ha
        refine ⟨a' :: t, hv.split.2, (List.nodup_append.1 hnodup).2.1, fun k hk => ?_⟩
        exact List.mem_cons_of_mem a' (hsub (List.mem_append_right s hk))
      · exact ⟨a' :: v, hv.cons hc, List.nodup_cons.2 ⟨ha, hnodup⟩, List.cons_subset_cons a' hsub⟩

theorem mem_successors_of_straight {l : Label} {a : Action} {k : Node}
    (h : g.outgoing (.point l) = Program.straight l a k) : b ∈ g.successors (.point l) ↔ b = k := by
  simp [mem_successors, h, Program.straight, eq_comm]

theorem mem_successors_of_fork {l : Label} {c : Cond} {w₁ w₂ : Way} {yes no : Node}
    (h : g.outgoing (.point l) = Program.fork l c w₁ w₂ yes no) :
    b ∈ g.successors (.point l) ↔ b = yes ∨ b = no := by
  simp [mem_successors, h, Program.fork, eq_comm]

end FlowGraph

open FlowGraph

variable {g : FlowGraph} {p : Program} {k n : Node} {t : List Label} {w : Path}

/-! ## Traces are paths -/

theorem isPathFrom_of_straight {l : Label} {a : Action}
    (h : g.outgoing (.point l) = Program.straight l a k) (hw : g.IsPathFrom k n w) :
    g.IsPathFrom (.point l) n (.point l :: w) :=
  hw.cons ((mem_successors_of_straight h).2 rfl)

/-- A trace of a program in front of a path from the node that follows the program. -/
theorem Program.IsTrace.isPathFrom (ht : p.IsTrace t) (h : p.WiredIn g k)
    (hw : g.IsPathFrom k n w) : g.IsPathFrom (p.first k) n (t.map .point ++ w) := by
  induction p generalizing k t w with
  | skip =>
    obtain rfl : t = [] := ht
    exact hw
  | assign l x e =>
    obtain rfl : t = [l] := ht
    exact isPathFrom_of_straight h hw
  | input l x =>
    obtain rfl : t = [l] := ht
    exact isPathFrom_of_straight h hw
  | print l e =>
    obtain rfl : t = [l] := ht
    exact isPathFrom_of_straight h hw
  | seq a b iha ihb =>
    obtain ⟨u, v, hu, hv, rfl⟩ := ht
    rw [List.map_append, List.append_assoc]
    exact iha hu h.1 (ihb hv h.2 hw)
  | branch l c a b iha ihb =>
    obtain ⟨u, hu | hu, rfl⟩ := ht
    · exact (iha hu h.2.1 hw).cons ((mem_successors_of_fork h.1).2 (Or.inl rfl))
    · exact (ihb hu h.2.2 hw).cons ((mem_successors_of_fork h.1).2 (Or.inr rfl))
  | loop l c body ih =>
    obtain ⟨rounds, hrounds, rfl⟩ := ht
    induction rounds with
    | nil => exact hw.cons ((mem_successors_of_fork h.1).2 (Or.inr rfl))
    | cons u rounds ihr =>
      have hrest := ihr fun v hv => hrounds v (List.mem_cons_of_mem _ hv)
      have hround := ih (hrounds u List.mem_cons_self) h.2 hrest
      have hpath := hround.cons ((mem_successors_of_fork h.1).2 (Or.inl rfl))
      simpa [Program.first] using hpath

/-! ## Paths are traces -/

theorem exists_of_straight {l : Label} {a : Action}
    (h : g.outgoing (.point l) = Program.straight l a k) (hw : g.IsPathFrom (.point l) .exit w) :
    ∃ t v, t = [l] ∧ w = t.map .point ++ v ∧ g.IsPathFrom k .exit v := by
  obtain ⟨b, hb, v, rfl, hv⟩ := hw.uncons (by simp)
  obtain rfl := (mem_successors_of_straight h).1 hb
  exact ⟨[l], v, rfl, rfl, hv⟩

/-- A path from the first node of a program to the exit goes through the program along a trace. -/
theorem exists_isTrace_of_isPathFrom (h : p.WiredIn g k) (hw : g.IsPathFrom (p.first k) .exit w) :
    ∃ t v, p.IsTrace t ∧ w = t.map .point ++ v ∧ g.IsPathFrom k .exit v := by
  induction p generalizing k w with
  | skip => exact ⟨[], w, rfl, rfl, hw⟩
  | assign l x e => exact exists_of_straight h hw
  | input l x => exact exists_of_straight h hw
  | print l e => exact exists_of_straight h hw
  | seq a b iha ihb =>
    obtain ⟨u, w', hu, rfl, hw'⟩ := iha h.1 hw
    obtain ⟨v, w'', hv, rfl, hw''⟩ := ihb h.2 hw'
    exact ⟨u ++ v, w'', ⟨u, v, hu, hv, rfl⟩, by simp, hw''⟩
  | branch l c a b iha ihb =>
    obtain ⟨n, hn, v, rfl, hv⟩ := hw.uncons (by simp [Program.first])
    rcases (mem_successors_of_fork h.1).1 hn with rfl | rfl
    · obtain ⟨u, v', hu, rfl, hv'⟩ := iha h.2.1 hv
      exact ⟨l :: u, v', ⟨u, Or.inl hu, rfl⟩, rfl, hv'⟩
    · obtain ⟨u, v', hu, rfl, hv'⟩ := ihb h.2.2 hv
      exact ⟨l :: u, v', ⟨u, Or.inr hu, rfl⟩, rfl, hv'⟩
  | loop l c body ih =>
    -- A round leaves a shorter path from the header, so the rounds are found by induction on the length.
    induction hlen : w.length using Nat.strongRecOn generalizing w with
    | _ len ihlen =>
      obtain ⟨n, hn, v, rfl, hv⟩ := hw.uncons (by simp [Program.first])
      rcases (mem_successors_of_fork h.1).1 hn with rfl | rfl
      · obtain ⟨u, v', hu, rfl, hv'⟩ := ih h.2 hv
        have hshort : v'.length < len := by
          simp only [List.length_cons, List.length_append] at hlen
          omega
        obtain ⟨t, v'', ⟨rounds, hrounds, rfl⟩, rfl, hv''⟩ := ihlen _ hshort hv' rfl
        refine ⟨_, v'', ⟨u :: rounds, ?_, rfl⟩, by simp [Program.first], hv''⟩
        exact List.forall_mem_cons.2 ⟨hu, hrounds⟩
      · exact ⟨[l], v, ⟨[], by simp, rfl⟩, rfl, hv⟩

/-! ## Built graphs -/

theorem mem_successors_entry (hg : FlowGraph.ofProgram p = .ok g) :
    n ∈ g.successors .entry ↔ n = p.first .exit := by
  simp [mem_successors, outgoing_entry hg, Program.entryEdge, eq_comm]

/-- Nothing comes after the exit. -/
theorem eq_of_isPathFrom_exit (hg : FlowGraph.ofProgram p = .ok g) (hw : g.IsPathFrom .exit n w) :
    w = [.exit] := by
  match w, hw with
  | [], hw => cases hw.head
  | [a], hw => simpa using hw.head
  | a :: b :: v, hw =>
    obtain rfl : a = .exit := by simpa using hw.head
    have hb := (isPath_cons_cons.1 hw.follows).1
    simp [mem_successors, outgoing_exit hg] at hb

theorem isPathFrom_entry_exit_iff (hg : FlowGraph.ofProgram p = .ok g) :
    g.IsPathFrom .entry .exit w ↔ ∃ t, p.IsTrace t ∧ w = .entry :: (t.map .point ++ [.exit]) := by
  have hwired := wiredIn_of_ofProgram hg
  constructor
  · intro hw
    obtain ⟨n, hn, v, rfl, hv⟩ := hw.uncons (by simp)
    obtain rfl := (mem_successors_entry hg).1 hn
    obtain ⟨t, v', ht, rfl, hv'⟩ := exists_isTrace_of_isPathFrom hwired hv
    obtain rfl := eq_of_isPathFrom_exit hg hv'
    exact ⟨t, ht, rfl⟩
  · rintro ⟨t, ht, rfl⟩
    exact (ht.isPathFrom hwired (.single .exit)).cons ((mem_successors_entry hg).2 rfl)

/-- The paths from the entry to the exit of the graph of a program are the traces of the program. -/
theorem isPathFrom_iff_isTrace (hp : p.labels.Nodup) : ∃ g, FlowGraph.ofProgram p = .ok g ∧
    ∀ w : Path, g.IsPathFrom .entry .exit w ↔
      ∃ t, p.IsTrace t ∧ w = .entry :: (t.map .point ++ [.exit]) :=
  ⟨_, ofProgram_of_nodup hp, fun _ => isPathFrom_entry_exit_iff (ofProgram_of_nodup hp)⟩

/-- A loop whose body is a loop around a choice between nothing and nothing. -/
def coil : Program :=
  .seq (.loop 1 (.var "a") (.loop 2 (.var "b") (.branch 3 (.var "c") .skip (.seq .skip .skip))))
    (.print 4 (.const 0))

theorem isPathFrom_iff_isTrace_coil : coil.labels.Nodup ∧ ∃ g, FlowGraph.ofProgram coil = .ok g ∧
    g.IsPathFrom .entry .exit [.entry, .point 1, .point 2, .point 3, .point 2, .point 1, .point 4, .exit] ∧
    ¬ coil.IsTrace [1, 2, 3, 1, 4] := by
  have hp : coil.labels.Nodup := by decide
  obtain ⟨g, hg, h⟩ := isPathFrom_iff_isTrace hp
  refine ⟨hp, g, hg, (h _).2 ⟨[1, 2, 3, 2, 1, 4], ?_, rfl⟩, fun ht => ?_⟩
  · refine ⟨[1, 2, 3, 2, 1], [4], ⟨[[2, 3, 2]], ?_, rfl⟩, rfl, rfl⟩
    exact List.forall_mem_singleton.2 ⟨[[3]], by simp [Program.IsTrace], rfl⟩
  · have hpath := ((h _).2 ⟨_, ht, rfl⟩).follows
    obtain rfl := (ofProgram_eq_ok_iff.1 hg).2
    revert hpath
    decide

end Pathwise
