import Mathlib.Data.List.Nodup
import Mathlib.Logic.Relation
import Pathwise.FlowGraph.Nesting
import Pathwise.Proofs.Ascending
import Pathwise.Proofs.Shape

/-!
The nesting of loops that is found on the graph is that of the program.

An edge leaves the loops around its source as they are, leads back to one of them, or goes into a body
and so adds its own source (`around_of_mem_wires`). The walk over the graph has visited the headers
that it carries, so a node that it meets for the first time is surrounded by exactly these
(`NestingInvariant`). Each header is met once, and `mem_nestedPairs` says that it is noted then for
every loop around it. What is looked up for a loop is then the loops in its body (`lookup_nestedLoops`),
and no loop is inside itself (`not_transGen_nests_self`).
-/

namespace Pathwise

/-! ## Loops of a program -/

namespace Program

/-- The labels of the loops, in the order in which they begin in the text. -/
def loops : Program → List Label
  | skip | assign _ _ _ | input _ _ | print _ _ => []
  | seq a b | branch _ _ a b => a.loops ++ b.loops
  | loop l _ body => l :: body.loops

/-- The statement with label `l` stands in the body of the loop `h`, at any depth. -/
def Encloses : Program → Label → Label → Prop
  | skip, _, _ | assign _ _ _, _, _ | input _ _, _, _ | print _ _, _, _ => False
  | seq a b, h, l | branch _ _ a b, h, l => a.Encloses h l ∨ b.Encloses h l
  | loop l' _ body, h, l => h = l' ∧ l ∈ body.labels ∨ body.Encloses h l

/-- The loops around a statement of `p` are, according to `E`, those of `p` itself and those in `A`. -/
def Surrounded (E : Label → Label → Prop) (A : Label → Prop) (p : Program) : Prop :=
  ∀ h, ∀ l ∈ p.labels, E h l ↔ p.Encloses h l ∨ A h

end Program

open FlowGraph

variable {g : FlowGraph} {p : Program} {k n m : Node} {h l : Label}

theorem mem_labels_of_encloses (hp : p.Encloses h l) : l ∈ p.labels := by
  induction p with
  | skip => exact hp.elim
  | assign l' x e => exact hp.elim
  | input l' x => exact hp.elim
  | print l' e => exact hp.elim
  | seq a b iha ihb =>
    rcases hp with hp | hp
    · exact List.mem_append_left _ (iha hp)
    · exact List.mem_append_right _ (ihb hp)
  | branch l' c a b iha ihb =>
    refine List.mem_cons_of_mem _ ?_
    rcases hp with hp | hp
    · exact List.mem_append_left _ (iha hp)
    · exact List.mem_append_right _ (ihb hp)
  | loop l' c body ih =>
    rcases hp with ⟨-, hl⟩ | hp
    · exact List.mem_cons_of_mem _ hl
    · exact List.mem_cons_of_mem _ (ih hp)

theorem mem_loops_iff : l ∈ p.loops ↔ ∃ c body, .loop l c body ∈ p.statements := by
  induction p with
  | skip => simp [Program.loops, Program.statements]
  | assign l' x e => simp [Program.loops, Program.statements]
  | input l' x => simp [Program.loops, Program.statements]
  | print l' e => simp [Program.loops, Program.statements]
  | seq a b iha ihb => simp [Program.loops, Program.statements, iha, ihb, exists_or]
  | branch l' c a b iha ihb => simp [Program.loops, Program.statements, iha, ihb, exists_or]
  | loop l' c body ih =>
    simp only [Program.loops, Program.statements, List.mem_cons, ih, Program.loop.injEq]
    constructor
    · rintro (rfl | ⟨c', body', hs⟩)
      · exact ⟨c, body, Or.inl ⟨rfl, rfl, rfl⟩⟩
      · exact ⟨c', body', Or.inr hs⟩
    · rintro ⟨c', body', ⟨rfl, -, -⟩ | hs⟩
      · exact Or.inl rfl
      · exact Or.inr ⟨c', body', hs⟩

theorem encloses_iff :
    p.Encloses h l ↔ ∃ c body, .loop h c body ∈ p.statements ∧ l ∈ body.labels := by
  induction p with
  | skip => simp [Program.Encloses, Program.statements]
  | assign l' x e => simp [Program.Encloses, Program.statements]
  | input l' x => simp [Program.Encloses, Program.statements]
  | print l' e => simp [Program.Encloses, Program.statements]
  | seq a b iha ihb =>
    simp [Program.Encloses, Program.statements, iha, ihb, exists_or, or_and_right]
  | branch l' c a b iha ihb =>
    simp [Program.Encloses, Program.statements, iha, ihb, exists_or, or_and_right]
  | loop l' c body ih =>
    simp only [Program.Encloses, Program.statements, List.mem_cons, ih, Program.loop.injEq]
    constructor
    · rintro (⟨rfl, hl⟩ | ⟨c', body', hs, hl⟩)
      · exact ⟨c, body, Or.inl ⟨rfl, rfl, rfl⟩, hl⟩
      · exact ⟨c', body', Or.inr hs, hl⟩
    · rintro ⟨c', body', ⟨rfl, -, rfl⟩ | hs, hl⟩
      · exact Or.inl ⟨rfl, hl⟩
      · exact Or.inr ⟨c', body', hs, hl⟩

theorem mem_labels_of_mem_loops (hl : l ∈ p.loops) : l ∈ p.labels := by
  obtain ⟨c, body, hs⟩ := mem_loops_iff.1 hl
  have hmem : some l ∈ p.statements.map (·.label?) := List.mem_map.2 ⟨_, hs, rfl⟩
  simpa [map_label?_statements] using hmem

theorem nodup_loops (hp : p.labels.Nodup) : p.loops.Nodup := by
  induction p with
  | skip => exact .nil
  | assign l x e => exact .nil
  | input l x => exact .nil
  | print l e => exact .nil
  | seq a b iha ihb =>
    obtain ⟨ha, hb, hab⟩ := List.nodup_append.1 hp
    refine List.nodup_append.2 ⟨iha ha, ihb hb, fun l hl l' hl' => ?_⟩
    exact hab l (mem_labels_of_mem_loops hl) l' (mem_labels_of_mem_loops hl')
  | branch l c a b iha ihb =>
    obtain ⟨ha, hb, hab⟩ := List.nodup_append.1 (List.nodup_cons.1 hp).2
    refine List.nodup_append.2 ⟨iha ha, ihb hb, fun l hl l' hl' => ?_⟩
    exact hab l (mem_labels_of_mem_loops hl) l' (mem_labels_of_mem_loops hl')
  | loop l c body ih =>
    obtain ⟨hl, hbody⟩ := List.nodup_cons.1 hp
    exact List.nodup_cons.2 ⟨fun h => hl (mem_labels_of_mem_loops h), ih hbody⟩

/-- Where labels are distinct, a statement is known by its label. -/
theorem statement_unique (hp : p.labels.Nodup) {s s' : Program} (hs : s ∈ p.statements)
    (hs' : s' ∈ p.statements) (hl : s.label? = s'.label?) : s = s' := by
  have hnodup : (p.statements.map (·.label?)).Nodup := by
    rw [map_label?_statements]
    exact hp.map fun _ _ => Option.some.inj
  exact List.inj_on_of_nodup_map hnodup hs hs' hl

theorem mem_statements_of_body {c : Cond} {body s : Program}
    (hl : .loop l c body ∈ p.statements) (hs : s ∈ body.statements) : s ∈ p.statements := by
  induction p with
  | skip => simp [Program.statements] at hl
  | assign l' x e => simp [Program.statements] at hl
  | input l' x => simp [Program.statements] at hl
  | print l' e => simp [Program.statements] at hl
  | seq a b iha ihb =>
    rcases List.mem_append.1 hl with hl | hl
    · exact List.mem_append_left _ (iha hl)
    · exact List.mem_append_right _ (ihb hl)
  | branch l' c' a b iha ihb =>
    simp only [Program.statements, List.mem_cons, reduceCtorEq, List.mem_append, false_or] at hl
    refine List.mem_cons_of_mem _ ?_
    rcases hl with hl | hl
    · exact List.mem_append_left _ (iha hl)
    · exact List.mem_append_right _ (ihb hl)
  | loop l' c' body' ih =>
    rcases List.mem_cons.1 hl with hl | hl
    · cases hl
      exact List.mem_cons_of_mem _ hs
    · exact List.mem_cons_of_mem _ (ih hl)

/-- The loops in the body of a loop are those that it encloses. -/
theorem mem_loops_body_iff (hp : p.labels.Nodup) {c : Cond} {body : Program}
    (hs : .loop h c body ∈ p.statements) : l ∈ body.loops ↔ l ∈ p.loops ∧ p.Encloses h l := by
  constructor
  · intro hl
    refine ⟨?_, encloses_iff.2 ⟨c, body, hs, mem_labels_of_mem_loops hl⟩⟩
    obtain ⟨c', body', hs'⟩ := mem_loops_iff.1 hl
    exact mem_loops_iff.2 ⟨c', body', mem_statements_of_body hs hs'⟩
  · rintro ⟨hl, henc⟩
    obtain ⟨c', body', hs', hlb⟩ := encloses_iff.1 henc
    cases statement_unique hp hs hs' rfl
    -- The statement of `l` in the body is the loop `l`, there being no other.
    obtain ⟨s, hsb, hsl⟩ := exists_statement hlb
    obtain ⟨c'', body'', hs''⟩ := mem_loops_iff.1 hl
    obtain rfl := statement_unique hp (mem_statements_of_body hs hsb) hs'' hsl
    exact mem_loops_iff.2 ⟨c'', body'', hsb⟩

/-! ## Loops around the ends of an edge -/

namespace Program.Surrounded

variable {E : Label → Label → Prop} {A : Label → Prop} {a b : Program} {c : Cond}

theorem seq (hE : (Program.seq a b).Surrounded E A) (hp : (Program.seq a b).labels.Nodup) :
    a.Surrounded E A ∧ b.Surrounded E A := by
  have hab := (List.nodup_append.1 hp).2.2
  refine ⟨fun h l hl => ?_, fun h l hl => ?_⟩
  · have hb : ¬ b.Encloses h l := fun henc => hab l hl l (mem_labels_of_encloses henc) rfl
    simpa [Encloses, hb] using hE h l (List.mem_append_left _ hl)
  · have ha : ¬ a.Encloses h l := fun henc => hab l (mem_labels_of_encloses henc) l hl rfl
    simpa [Encloses, ha] using hE h l (List.mem_append_right _ hl)

theorem branch (hE : (Program.branch l c a b).Surrounded E A) : (Program.seq a b).Surrounded E A :=
  fun h l' hl' => hE h l' (List.mem_cons_of_mem l hl')

theorem loop {body : Program} (hE : (Program.loop l c body).Surrounded E A) :
    body.Surrounded E fun h => h = l ∨ A h := by
  intro h l' hl'
  have henc := hE h l' (List.mem_cons_of_mem l hl')
  simp only [Encloses, hl', and_true] at henc
  rw [henc]
  tauto

/-- No loop of a statement is around its own label. -/
theorem head (hE : p.Surrounded E A) (hp : p.labels.Nodup) (hl : p.label? = some l) (h : Label) :
    E h l ↔ A h := by
  have hnot : l ∈ p.labels ∧ ¬ p.Encloses h l := by
    cases p with
    | skip => cases hl
    | seq a b => cases hl
    | assign l' x e => cases hl; simp [labels, Encloses]
    | input l' x => cases hl; simp [labels, Encloses]
    | print l' e => cases hl; simp [labels, Encloses]
    | branch l' c a b =>
      cases hl
      refine ⟨List.mem_cons_self, fun henc => (List.nodup_cons.1 hp).1 ?_⟩
      exact mem_labels_of_encloses (p := .seq a b) henc
    | loop l' c body =>
      cases hl
      refine ⟨List.mem_cons_self, fun henc => (List.nodup_cons.1 hp).1 ?_⟩
      rcases henc with ⟨-, hl⟩ | henc
      · exact hl
      · exact mem_labels_of_encloses henc
  simp [hE h l hnot.1, hnot.2]

end Program.Surrounded

/-- The loops around a node, given those around a label. -/
def IsAround (E : Label → Label → Prop) (h : Label) : Node → Prop
  | .point l => E h l
  | .entry | .exit => False

/-- Control that leaves for `n` stays among the loops `A` or comes back to the header of one. -/
def StaysIn (E : Label → Label → Prop) (A : Label → Prop) (n : Node) : Prop :=
  (∃ h, n = .point h ∧ A h) ∨ ∀ h, IsAround E h n ↔ A h

section
variable {E : Label → Label → Prop} {A : Label → Prop}

theorem staysIn_first (hE : p.Surrounded E A) (hp : p.labels.Nodup) (hk : StaysIn E A k) :
    StaysIn E A (p.first k) := by
  induction p generalizing k with
  | skip => exact hk
  | assign l x e => exact Or.inr (hE.head hp rfl)
  | input l x => exact Or.inr (hE.head hp rfl)
  | print l e => exact Or.inr (hE.head hp rfl)
  | seq a b iha ihb =>
    obtain ⟨ha, hb⟩ := hE.seq hp
    obtain ⟨hpa, hpb, -⟩ := List.nodup_append.1 hp
    exact iha ha hpa (ihb hb hpb hk)
  | branch l c a b => exact Or.inr (hE.head hp rfl)
  | loop l c body => exact Or.inr (hE.head hp rfl)

/-- What an edge does to the loops around: into a body its source is added. -/
def Edge.KeepsAround (E : Label → Label → Prop) (e : Edge) : Prop :=
  StaysIn E (fun h => IsAround E h e.source ∨ e.way = .body ∧ e.source = .point h) e.target

theorem keepsAround_of_head {e : Edge} (hE : p.Surrounded E A) (hp : p.labels.Nodup)
    (hl : p.label? = some l) (hs : e.source = .point l) (hw : e.way ≠ .body)
    (ht : StaysIn E A e.target) : e.KeepsAround E := by
  have hA : (fun h => IsAround E h e.source ∨ e.way = .body ∧ e.source = .point h) = A := by
    funext h
    simp [hw, hs, IsAround, hE.head hp hl h]
  rwa [Edge.KeepsAround, hA]

theorem around_of_mem_wires {e : Edge} (hE : p.Surrounded E A) (hp : p.labels.Nodup)
    (hk : StaysIn E A k) (he : e ∈ p.wires k) : e.KeepsAround E := by
  induction p generalizing A k with
  | skip => simp [Program.wires] at he
  | assign l x a =>
    obtain rfl := List.mem_singleton.1 he
    exact keepsAround_of_head hE hp rfl rfl (by simp) hk
  | input l x =>
    obtain rfl := List.mem_singleton.1 he
    exact keepsAround_of_head hE hp rfl rfl (by simp) hk
  | print l a =>
    obtain rfl := List.mem_singleton.1 he
    exact keepsAround_of_head hE hp rfl rfl (by simp) hk
  | seq a b iha ihb =>
    obtain ⟨ha, hb⟩ := hE.seq hp
    obtain ⟨hpa, hpb, -⟩ := List.nodup_append.1 hp
    rcases List.mem_append.1 he with he | he
    · exact iha ha hpa (staysIn_first hb hpb hk) he
    · exact ihb hb hpb hk he
  | branch l c a b iha ihb =>
    have hab := (List.nodup_cons.1 hp).2
    obtain ⟨ha, hb⟩ := hE.branch.seq hab
    obtain ⟨hpa, hpb, -⟩ := List.nodup_append.1 hab
    simp only [Program.wires, Program.fork, List.mem_append, List.mem_cons, List.not_mem_nil,
      or_false] at he
    rcases he with (rfl | rfl) | he | he
    · exact keepsAround_of_head hE hp rfl rfl (by simp) (staysIn_first ha hpa hk)
    · exact keepsAround_of_head hE hp rfl rfl (by simp) (staysIn_first hb hpb hk)
    · exact iha ha hpa hk he
    · exact ihb hb hpb hk he
  | loop l c body ih =>
    have hbody := hE.loop
    have hpb := (List.nodup_cons.1 hp).2
    have hback : StaysIn E (fun h => h = l ∨ A h) (.point l) := Or.inl ⟨l, rfl, Or.inl rfl⟩
    simp only [Program.wires, Program.fork, List.mem_append, List.mem_cons, List.not_mem_nil,
      or_false] at he
    rcases he with (rfl | rfl) | he
    · have hA : (fun h => IsAround E h (.point l) ∨ Way.body = .body ∧ Node.point l = .point h) =
          fun h => h = l ∨ A h := by
        funext h
        simp only [IsAround, hE.head hp rfl h, true_and, Node.point.injEq, eq_comm (a := l), or_comm]
      rw [Edge.KeepsAround, hA]
      exact staysIn_first hbody hpb hback
    · exact keepsAround_of_head hE hp rfl rfl (by simp) hk
    · exact ih hbody hpb hback he

end

/-! ## Loop headers of a built graph -/

theorem outgoing_of_loop {c : Cond} {body : Program} (hw : p.WiredIn g k)
    (hs : .loop l c body ∈ p.statements) :
    ∃ k', g.outgoing (.point l) = Program.fork l c .body .leave (body.first (.point l)) k' := by
  induction p generalizing k with
  | skip => simp [Program.statements] at hs
  | assign l' x e => simp [Program.statements] at hs
  | input l' x => simp [Program.statements] at hs
  | print l' e => simp [Program.statements] at hs
  | seq a b iha ihb =>
    rcases List.mem_append.1 hs with hs | hs
    · exact iha hw.1 hs
    · exact ihb hw.2 hs
  | branch l' c' a b iha ihb =>
    simp only [Program.statements, List.mem_cons, reduceCtorEq, List.mem_append, false_or] at hs
    rcases hs with hs | hs
    · exact iha hw.2.1 hs
    · exact ihb hw.2.2 hs
  | loop l' c' body' ih =>
    rcases List.mem_cons.1 hs with hs | hs
    · cases hs
      exact ⟨k, hw.1⟩
    · exact ih hw.2 hs

theorem exists_fork_of_mem_loops (hg : FlowGraph.ofProgram p = .ok g) (hl : l ∈ p.loops) :
    ∃ c yes no, g.outgoing (.point l) = Program.fork l c .body .leave yes no := by
  obtain ⟨c, body, hs⟩ := mem_loops_iff.1 hl
  obtain ⟨k', ho⟩ := outgoing_of_loop (wiredIn_of_ofProgram hg) hs
  exact ⟨c, _, k', ho⟩

theorem follow_of_fork {c : Cond} {yes no : Node}
    (ho : g.outgoing (.point l) = Program.fork l c .body .leave yes no) :
    g.loopBody? (.point l) = some yes ∧ g.loopExit? (.point l) = some no ∧
      g.isLoopHeader (.point l) = true := by
  simp [loopBody?, loopExit?, follow?, isLoopHeader, FlowGraph.decision?, ho, Program.fork,
    Way.decision?]

/-- Out of a node that is no loop header no edge goes into a body or out of a loop. -/
theorem decision?_way_ne_loop (hg : FlowGraph.ofProgram p = .ok g) (hn : ∀ l ∈ p.loops, n ≠ .point l)
    {e : Edge} (he : e ∈ g.outgoing n) : e.way.decision? ≠ some .loop := by
  cases n with
  | entry =>
    rw [outgoing_entry hg, List.mem_singleton] at he
    simp [he, Program.entryEdge, Way.decision?]
  | exit => simp [outgoing_exit hg] at he
  | point l =>
    have hl : l ∈ p.labels := by
      by_contra hl
      simp [outgoing_foreign hg hl] at he
    obtain ⟨s, hs, hsl⟩ := exists_statement hl
    have hway : e.opened ∈ s.ways := by
      rw [← map_opened_outgoing (wiredIn_of_ofProgram hg) hs hsl]
      exact List.mem_map_of_mem he
    have hopen : ∀ o ∈ s.ways, o.way.decision? ≠ some .loop := by
      cases s with
      | loop l' c body =>
        obtain rfl := Option.some.inj hsl
        exact absurd rfl (hn l' (mem_loops_iff.2 ⟨c, body, hs⟩))
      | skip => simp [Program.ways]
      | seq a b => simp [Program.ways]
      | assign l' x a => simp [Program.ways, Way.decision?]
      | input l' x => simp [Program.ways, Way.decision?]
      | print l' a => simp [Program.ways, Way.decision?]
      | branch l' c a b => simp [Program.ways, Way.decision?]
    exact hopen _ hway

theorem exists_loop_of_loopBody? (hg : FlowGraph.ofProgram p = .ok g) (hm : g.loopBody? n = some m) :
    ∃ l ∈ p.loops, n = .point l := by
  by_contra hnot
  obtain ⟨e, he, -⟩ := Option.map_eq_some_iff.1 hm
  have hway : e.way = .body := by simpa using List.find?_some he
  refine decision?_way_ne_loop hg (fun l hl e => hnot ⟨l, hl, e⟩) (List.mem_of_find?_eq_some he) ?_
  rw [hway]
  rfl

theorem isLoopHeader_iff (hg : FlowGraph.ofProgram p = .ok g) :
    g.isLoopHeader n = true ↔ ∃ l ∈ p.loops, n = .point l := by
  constructor
  · intro hloop
    by_contra hn
    obtain ⟨e, he, hw⟩ := Option.bind_eq_some_iff.1 (eq_of_beq hloop)
    exact decision?_way_ne_loop hg (fun l hl e => hn ⟨l, hl, e⟩) (List.mem_of_mem_head? he) hw
  · rintro ⟨l, hl, rfl⟩
    obtain ⟨c, yes, no, ho⟩ := exists_fork_of_mem_loops hg hl
    exact (follow_of_fork ho).2.2

/-- At every node the edges keep account of the loops around. -/
theorem keepsAround_of_outgoing (hg : FlowGraph.ofProgram p = .ok g) {e : Edge}
    (he : e ∈ g.outgoing n) : e.KeepsAround p.Encloses := by
  obtain ⟨hp, rfl⟩ := ofProgram_eq_ok_iff.1 hg
  have hE : p.Surrounded p.Encloses fun _ => False := fun h l _ => by simp
  have hexit : StaysIn p.Encloses (fun _ => False) .exit := Or.inr fun h => Iff.rfl
  rcases List.mem_cons.1 ((edges_layOut_perm p).mem_iff.1 (mem_outgoing.1 he).1) with rfl | he
  · simpa [Edge.KeepsAround, Program.entryEdge, IsAround] using staysIn_first hE hp hexit
  · exact around_of_mem_wires hE hp hexit he

/-! ## The walk -/

/-- Where the walk over the graph of `p` stands. -/
structure NestingInvariant (g : FlowGraph) (p : Program) (visited : List Node)
    (stack : List (Node × List Node)) : Prop where
  nodes : ∀ s ∈ stack, s.1 ∈ g.nodes
  around : ∀ s ∈ stack, s.1 ∉ visited → ∀ h, .point h ∈ s.2 ↔ IsAround p.Encloses h s.1
  met : ∀ s ∈ stack, ∀ h ∈ s.2, h ∈ visited ∧ ∃ l, h = .point l
  entry : .entry ∈ visited ∨ .entry ∈ stack.map (·.1)
  closed : ∀ n ∈ visited, ∀ m ∈ g.successors n, m ∈ visited ∨ m ∈ stack.map (·.1)

namespace NestingInvariant

variable {visited : List Node} {stack : List (Node × List Node)} {hs : List Node}

/-- A node that was visited before is passed over. -/
theorem drop (hi : NestingInvariant g p visited ((n, hs) :: stack)) (hn : n ∈ visited) :
    NestingInvariant g p visited stack where
  nodes s h := hi.nodes s (List.mem_cons_of_mem _ h)
  around s h := hi.around s (List.mem_cons_of_mem _ h)
  met s h := hi.met s (List.mem_cons_of_mem _ h)
  entry := by
    rcases hi.entry with h | h
    · exact Or.inl h
    · rcases List.mem_cons.1 h with rfl | h
      · exact Or.inl hn
      · exact Or.inr h
  closed a ha m hm := by
    rcases hi.closed a ha m hm with h | h
    · exact Or.inl h
    · rcases List.mem_cons.1 h with rfl | h
      · exact Or.inl hn
      · exact Or.inr h

/-- Visiting a node puts the nodes after it on the stack, each with the loops around it. -/
theorem visit (hi : NestingInvariant g p visited ((n, hs) :: stack))
    (after : List (Node × List Node)) (hnodes : ∀ s ∈ after, s.1 ∈ g.nodes)
    (hway : ∀ s ∈ after, StaysIn p.Encloses (fun h => .point h ∈ s.2) s.1)
    (hmet : ∀ s ∈ after, ∀ h ∈ s.2, h ∈ n :: visited ∧ ∃ l, h = .point l)
    (hafter : ∀ m ∈ g.successors n, m ∈ after.map (·.1)) :
    NestingInvariant g p (n :: visited) (after ++ stack) where
  nodes s h := by
    rcases List.mem_append.1 h with h | h
    · exact hnodes s h
    · exact hi.nodes s (List.mem_cons_of_mem _ h)
  around s h hs := by
    rcases List.mem_append.1 h with h | h
    -- A node that leads back to a header around it has been visited.
    · rcases hway s h with ⟨l, hl, hmem⟩ | hiff
      · exact absurd (hl ▸ (hmet s h _ hmem).1) hs
      · exact fun l => (hiff l).symm
    · exact hi.around s (List.mem_cons_of_mem _ h) fun hv => hs (List.mem_cons_of_mem _ hv)
  met s h := by
    rcases List.mem_append.1 h with h | h
    · exact hmet s h
    · intro a ha
      obtain ⟨hv, hl⟩ := hi.met s (List.mem_cons_of_mem _ h) a ha
      exact ⟨List.mem_cons_of_mem _ hv, hl⟩
  entry := by
    rcases hi.entry with h | h
    · exact Or.inl (List.mem_cons_of_mem _ h)
    · rcases List.mem_cons.1 h with rfl | h
      · exact Or.inl List.mem_cons_self
      · exact Or.inr (by simp [h])
  closed a ha m hm := by
    rcases List.mem_cons.1 ha with rfl | ha
    · exact Or.inr (by simp [hafter m hm])
    · rcases hi.closed a ha m hm with h | h
      · exact Or.inl (List.mem_cons_of_mem _ h)
      · rcases List.mem_cons.1 h with rfl | h
        · exact Or.inl List.mem_cons_self
        · exact Or.inr (by simp [h])

/-- When the stack is empty the walk has been everywhere. -/
theorem mem_visited (hg : FlowGraph.ofProgram p = .ok g) (hi : NestingInvariant g p visited [])
    (hn : n ∈ g.nodes) : n ∈ visited := by
  obtain ⟨w, hw⟩ := (mirrors_ofProgram hg).reached n hn
  have hentry : .entry ∈ visited := by simpa using hi.entry
  have hstep : ∀ a ∈ visited, ∀ m ∈ g.successors a, m ∈ visited := by simpa using hi.closed
  clear hi hn
  generalize Node.entry = a at hentry hw
  induction w generalizing a with
  | nil => cases hw.head
  | cons b w ih =>
    by_cases hab : a = n
    · exact hab ▸ hentry
    · obtain ⟨m, hm, v, hv, hrest⟩ := hw.uncons hab
      obtain ⟨-, rfl⟩ := List.cons.inj hv
      exact ih m (hstep a hentry m hm) hrest

variable {e : Edge}

/-- An edge leads on among the loops that are carried along it. -/
theorem staysIn_target (hg : FlowGraph.ofProgram p = .ok g)
    (hi : NestingInvariant g p visited ((n, hs) :: stack)) (hn : n ∉ visited)
    (he : e ∈ g.outgoing n) {carried : List Node}
    (hcarried : ∀ h, .point h ∈ carried ↔ .point h ∈ hs ∨ e.way = .body ∧ n = .point h) :
    StaysIn p.Encloses (fun h => .point h ∈ carried) e.target := by
  have hkeeps := keepsAround_of_outgoing hg he
  rw [Edge.KeepsAround, (mem_outgoing.1 he).2] at hkeeps
  have hA : (fun h => .point h ∈ carried) =
      fun h => IsAround p.Encloses h n ∨ e.way = .body ∧ n = .point h := by
    funext h
    rw [hcarried h, hi.around _ List.mem_cons_self hn h]
  rwa [hA]

theorem visit_header (hg : FlowGraph.ofProgram p = .ok g) {c : Cond} {yes no : Node}
    (hi : NestingInvariant g p visited ((.point h, hs) :: stack)) (hn : .point h ∉ visited)
    (ho : g.outgoing (.point h) = Program.fork h c .body .leave yes no) :
    NestingInvariant g p (.point h :: visited) ((yes, .point h :: hs) :: (no, hs) :: stack) := by
  have hyes : yes ∈ g.successors (.point h) := (mem_successors_of_fork ho).2 (Or.inl rfl)
  have hno : no ∈ g.successors (.point h) := (mem_successors_of_fork ho).2 (Or.inr rfl)
  have hmet : ∀ a ∈ hs, a ∈ .point h :: visited ∧ ∃ l, a = .point l := fun a ha =>
    have hv := hi.met _ List.mem_cons_self a ha
    ⟨List.mem_cons_of_mem _ hv.1, hv.2⟩
  refine hi.visit [(yes, .point h :: hs), (no, hs)] ?_ ?_ ?_ ?_
  · simp only [List.forall_mem_cons, List.not_mem_nil, IsEmpty.forall_iff, implies_true, and_true]
    exact ⟨mem_nodes_of_mem_successors hg hyes, mem_nodes_of_mem_successors hg hno⟩
  · simp only [List.forall_mem_cons, List.not_mem_nil, IsEmpty.forall_iff, implies_true, and_true]
    constructor
    · refine hi.staysIn_target hg hn (e := ⟨.point h, yes, c, .skip, .body⟩) ?_ fun h' => ?_
      · simp [ho, Program.fork]
      · simp [or_comm, eq_comm]
    · refine hi.staysIn_target hg hn (e := ⟨.point h, no, c.negate, .skip, .leave⟩) ?_ fun h' => ?_
      · simp [ho, Program.fork]
      · simp
  · simp only [List.forall_mem_cons, List.not_mem_nil, IsEmpty.forall_iff, implies_true, and_true]
    exact ⟨⟨⟨List.mem_cons_self, h, rfl⟩, hmet⟩, hmet⟩
  · intro m hm
    simpa using (mem_successors_of_fork ho).1 hm

theorem visit_plain (hg : FlowGraph.ofProgram p = .ok g)
    (hi : NestingInvariant g p visited ((n, hs) :: stack)) (hn : n ∉ visited)
    (hloop : ∀ l ∈ p.loops, n ≠ .point l) :
    NestingInvariant g p (n :: visited) ((g.successors n).map (·, hs) ++ stack) := by
  refine hi.visit ((g.successors n).map (·, hs)) ?_ ?_ ?_ ?_
  · simp only [List.forall_mem_map]
    exact fun m hm => mem_nodes_of_mem_successors hg hm
  · simp only [List.forall_mem_map]
    intro m hm
    obtain ⟨e, he, rfl⟩ := mem_successors.1 hm
    refine hi.staysIn_target hg hn he fun h => ?_
    have hway : e.way ≠ .body := fun hw => decision?_way_ne_loop hg hloop he (by rw [hw]; rfl)
    simp [hway]
  · simp only [List.forall_mem_map]
    intro m _ a ha
    obtain ⟨hv, hl⟩ := hi.met _ List.mem_cons_self a ha
    exact ⟨List.mem_cons_of_mem _ hv, hl⟩
  · simp

end NestingInvariant

/-- The walk notes a header for the loops around it, when it comes to it first. -/
theorem mem_nestedPairs (hg : FlowGraph.ofProgram p = .ok g) {visited : List Node}
    {stack : List (Node × List Node)} (hi : NestingInvariant g p visited stack) {o : Node} :
    (o, m) ∈ g.nestedPairs visited stack ↔
      m ∉ visited ∧ ∃ h, ∃ l ∈ p.loops, o = .point h ∧ m = .point l ∧ p.Encloses h l := by
  fun_induction g.nestedPairs visited stack with
  | case1 visited =>
    refine iff_of_false (by simp) ?_
    rintro ⟨hl, -, l, hloop, -, rfl, -⟩
    refine hl (hi.mem_visited hg ?_)
    simp [nodes_ofProgram hg, mem_labels_of_mem_loops hloop]
  | case2 visited n around stack hn body behind hexit hbody ih =>
    obtain ⟨l, hloop, rfl⟩ := exists_loop_of_loopBody? hg hbody
    obtain ⟨c, yes, no, ho⟩ := exists_fork_of_mem_loops hg hloop
    obtain ⟨hyes, hno, -⟩ := follow_of_fork ho
    obtain rfl := Option.some.inj (hbody.symm.trans hyes)
    obtain rfl := Option.some.inj (hexit.symm.trans hno)
    rw [List.mem_append, ih (hi.visit_header hg hn.2 ho)]
    have haround := hi.around _ List.mem_cons_self hn.2
    have hpoint : ∀ a ∈ around, ∃ h, a = .point h := fun a ha =>
      (hi.met _ List.mem_cons_self a ha).2
    simp only [List.mem_map, Prod.mk.injEq, List.mem_cons, not_or]
    constructor
    · rintro (⟨a, ha, rfl, rfl⟩ | ⟨⟨-, hm⟩, hrest⟩)
      · obtain ⟨h, rfl⟩ := hpoint a ha
        exact ⟨hn.2, h, l, hloop, rfl, rfl, (haround h).1 ha⟩
      · exact ⟨hm, hrest⟩
    · rintro ⟨hm, h, l', hl', rfl, rfl, henc⟩
      by_cases hll : l' = l
      · subst hll
        exact Or.inl ⟨_, (haround h).2 henc, rfl, rfl⟩
      · exact Or.inr ⟨⟨by simpa using hll, hm⟩, h, l', hl', rfl, rfl, henc⟩
  | case3 visited n around stack hn hnone ih =>
    have hloop : ∀ l ∈ p.loops, n ≠ .point l := by
      rintro l hl rfl
      obtain ⟨c, yes, no, ho⟩ := exists_fork_of_mem_loops hg hl
      obtain ⟨hyes, hno, -⟩ := follow_of_fork ho
      exact hnone _ _ hyes hno
    rw [ih (hi.visit_plain hg hn.2 hloop)]
    refine and_congr_left ?_
    rintro ⟨h, l, hl, -, rfl, -⟩
    simp [(hloop l hl).symm]
  | case4 visited n around stack hn ih =>
    have hv : n ∈ visited := by
      by_contra hv
      exact hn ⟨hi.nodes _ List.mem_cons_self, hv⟩
    exact ih (hi.drop hv)

/-! ## The nesting of a built graph -/

theorem loopHeaders_eq (hg : FlowGraph.ofProgram p = .ok g) :
    g.loopHeaders = ascending (p.loops.map .point) := by
  refine ascending_congr fun n => ?_
  rw [List.mem_filter, isLoopHeader_iff hg, nodes_ofProgram hg]
  constructor
  · rintro ⟨-, l, hl, rfl⟩
    exact List.mem_map_of_mem hl
  · intro hn
    obtain ⟨l, hl, rfl⟩ := List.mem_map.1 hn
    exact ⟨by simp [mem_labels_of_mem_loops hl], l, hl, rfl⟩

theorem mem_loopHeaders (hg : FlowGraph.ofProgram p = .ok g) :
    n ∈ g.loopHeaders ↔ ∃ l ∈ p.loops, n = .point l := by
  simp [loopHeaders_eq hg, mem_ascending, eq_comm]

theorem nestingInvariant_start (hg : FlowGraph.ofProgram p = .ok g) :
    NestingInvariant g p [] [(.entry, [])] where
  nodes := by simp [nodes_ofProgram hg]
  around := by simp [IsAround]
  met := by simp
  entry := by simp
  closed := by simp

/-- A loop is listed with the loops in its body. -/
theorem lookup_nestedLoops (hg : FlowGraph.ofProgram p = .ok g) {c : Cond} {body : Program}
    (hs : .loop h c body ∈ p.statements) :
    g.nestedLoops.lookup (.point h) = some (ascending (body.loops.map .point)) := by
  have hh : Node.point h ∈ g.loopHeaders :=
    (mem_loopHeaders hg).2 ⟨h, mem_loops_iff.2 ⟨c, body, hs⟩, rfl⟩
  rw [nestedLoops, lookup_map_self, if_pos hh]
  refine congrArg some (ascending_congr fun m => ?_)
  have hpairs := mem_nestedPairs hg (m := m) (nestingInvariant_start hg) (o := .point h)
  simp only [List.not_mem_nil, not_false_eq_true, true_and, Node.point.injEq] at hpairs
  simp only [List.mem_map, List.mem_filter, decide_eq_true_eq, Prod.exists, exists_eq_right, hpairs,
    mem_loops_body_iff (ofProgram_eq_ok_iff.1 hg).1 hs]
  constructor
  · rintro ⟨h', l, hl, rfl, rfl, henc⟩
    exact ⟨l, ⟨hl, henc⟩, rfl⟩
  · rintro ⟨l, ⟨hl, henc⟩, rfl⟩
    exact ⟨h, l, hl, rfl, rfl, henc⟩

theorem lookup_nestedLoops_eq_some (hg : FlowGraph.ofProgram p = .ok g) {inner : List Node} :
    g.nestedLoops.lookup n = some inner ↔ ∃ h c body, .loop h c body ∈ p.statements ∧
      n = .point h ∧ inner = ascending (body.loops.map .point) := by
  constructor
  · intro hn
    have hlisted : n ∈ g.loopHeaders := by
      rw [nestedLoops, lookup_map_self] at hn
      by_contra hnot
      simp [hnot] at hn
    obtain ⟨h, hh, rfl⟩ := (mem_loopHeaders hg).1 hlisted
    obtain ⟨c, body, hs⟩ := mem_loops_iff.1 hh
    exact ⟨h, c, body, hs, rfl, Option.some.inj (hn.symm.trans (lookup_nestedLoops hg hs))⟩
  · rintro ⟨h, c, body, hs, rfl, rfl⟩
    exact lookup_nestedLoops hg hs

/-- What is looked up about loop headers is there: every header has a way into its body and a way out,
and it is listed with headers. -/
structure FlowGraph.HeadersListed (g : FlowGraph) : Prop where
  header : ∀ n, g.isLoopHeader n = true ↔
    ∃ body behind, g.loopBody? n = some body ∧ g.loopExit? n = some behind
  listed : ∀ n, g.isLoopHeader n = true ↔ ∃ inner, g.nestedLoops.lookup n = some inner
  inner : ∀ n inner, g.nestedLoops.lookup n = some inner → ∀ m ∈ inner, g.isLoopHeader m = true

theorem isLoopHeader_iff_ways (hg : FlowGraph.ofProgram p = .ok g) : g.isLoopHeader n = true ↔
    ∃ body behind, g.loopBody? n = some body ∧ g.loopExit? n = some behind := by
  constructor
  · intro hn
    obtain ⟨l, hl, rfl⟩ := (isLoopHeader_iff hg).1 hn
    obtain ⟨c, yes, no, ho⟩ := exists_fork_of_mem_loops hg hl
    exact ⟨yes, no, (follow_of_fork ho).1, (follow_of_fork ho).2.1⟩
  · rintro ⟨body, behind, hbody, -⟩
    exact (isLoopHeader_iff hg).2 (exists_loop_of_loopBody? hg hbody)

theorem headersListed_ofProgram (hg : FlowGraph.ofProgram p = .ok g) : g.HeadersListed where
  header _ := isLoopHeader_iff_ways hg
  listed n := by
    rw [nestedLoops, lookup_map_self]
    simp [mem_loopHeaders hg, isLoopHeader_iff hg]
  inner n inner hinner m hm := by
    obtain ⟨h, c, body, hs, -, rfl⟩ := (lookup_nestedLoops_eq_some hg).1 hinner
    obtain ⟨l, hl, rfl⟩ := List.mem_map.1 (mem_ascending.1 hm)
    have hp := (ofProgram_eq_ok_iff.1 hg).1
    exact (isLoopHeader_iff hg).2 ⟨l, ((mem_loops_body_iff hp hs).1 hl).1, rfl⟩

/-! ## Nesting as a relation -/

/-- The loop `b` is listed among those inside the loop `a`. -/
def FlowGraph.Nests (g : FlowGraph) (a b : Node) : Prop :=
  ∃ inner, g.nestedLoops.lookup a = some inner ∧ b ∈ inner

theorem nests_iff (hg : FlowGraph.ofProgram p = .ok g) : g.Nests n m ↔
    ∃ h c body, .loop h c body ∈ p.statements ∧ n = .point h ∧ ∃ l ∈ body.loops, m = .point l := by
  simp only [FlowGraph.Nests, lookup_nestedLoops_eq_some hg]
  constructor
  · rintro ⟨_, ⟨h, c, body, hs, rfl, rfl⟩, hm⟩
    obtain ⟨l, hl, rfl⟩ := List.mem_map.1 (mem_ascending.1 hm)
    exact ⟨h, c, body, hs, rfl, l, hl, rfl⟩
  · rintro ⟨h, c, body, hs, rfl, l, hl, rfl⟩
    exact ⟨_, ⟨h, c, body, hs, rfl, rfl⟩, mem_ascending.2 (List.mem_map_of_mem hl)⟩

theorem labels_sublist_of_mem_statements {s : Program} (hs : s ∈ p.statements) :
    s.labels.Sublist p.labels := by
  induction p with
  | skip => simp [Program.statements] at hs
  | assign l x e => rw [List.mem_singleton.1 hs]
  | input l x => rw [List.mem_singleton.1 hs]
  | print l e => rw [List.mem_singleton.1 hs]
  | seq a b iha ihb =>
    rcases List.mem_append.1 hs with hs | hs
    · exact (iha hs).trans (List.sublist_append_left _ _)
    · exact (ihb hs).trans (List.sublist_append_right _ _)
  | branch l c a b iha ihb =>
    simp only [Program.statements, List.mem_cons, List.mem_append] at hs
    rcases hs with rfl | hs | hs
    · exact .refl _
    · exact ((iha hs).trans (List.sublist_append_left _ _)).cons l
    · exact ((ihb hs).trans (List.sublist_append_right _ _)).cons l
  | loop l c body ih =>
    rcases List.mem_cons.1 hs with rfl | hs
    · exact .refl _
    · exact (ih hs).cons l

/-- A loop does not stand in its own body. -/
theorem not_mem_loops_body (hp : p.labels.Nodup) {c : Cond} {body : Program}
    (hs : .loop h c body ∈ p.statements) : h ∉ body.loops := by
  have hnodup : (h :: body.labels).Nodup := hp.sublist (labels_sublist_of_mem_statements hs)
  exact fun hh => (List.nodup_cons.1 hnodup).1 (mem_labels_of_mem_loops hh)

theorem not_nests_self (hg : FlowGraph.ofProgram p = .ok g) (n : Node) : ¬ g.Nests n n := by
  intro hn
  obtain ⟨h, c, body, hs, rfl, l, hl, heq⟩ := (nests_iff hg).1 hn
  cases heq
  exact not_mem_loops_body (ofProgram_eq_ok_iff.1 hg).1 hs hl

theorem nests_trans (hg : FlowGraph.ofProgram p = .ok g) {k : Node} (hnm : g.Nests n m)
    (hmk : g.Nests m k) : g.Nests n k := by
  obtain ⟨h, c, body, hs, rfl, l, hl, rfl⟩ := (nests_iff hg).1 hnm
  obtain ⟨l', c', body', hs', heq, l'', hl'', rfl⟩ := (nests_iff hg).1 hmk
  cases heq
  -- The statement of `l` that lies in the body of `h` is the one whose body is looked into next.
  obtain ⟨c₁, body₁, hin⟩ := mem_loops_iff.1 hl
  cases statement_unique (ofProgram_eq_ok_iff.1 hg).1 hs' (mem_statements_of_body hs hin) rfl
  obtain ⟨c₂, body₂, hin'⟩ := mem_loops_iff.1 hl''
  refine (nests_iff hg).2 ⟨h, c, body, hs, rfl, l'', ?_, rfl⟩
  exact mem_loops_iff.2 ⟨c₂, body₂, mem_statements_of_body hin hin'⟩

theorem not_transGen_nests_self (hg : FlowGraph.ofProgram p = .ok g) (n : Node) :
    ¬ Relation.TransGen g.Nests n n := by
  have htrans : IsTrans Node g.Nests := ⟨fun _ _ _ => nests_trans hg⟩
  rw [Relation.transGen_eq_self]
  exact not_nests_self hg n

/-- The nesting that is read off the graph is that of the text. The walk finds the ways that a header
must have and comes to no node outside the graph; the loops of the program are listed, each with the
loops in its body at any depth, and no loop is inside itself, not even through others. -/
theorem nestedLoops_exact (hp : p.labels.Nodup) : ∃ g, FlowGraph.ofProgram p = .ok g ∧
    (∀ n, ∀ m ∈ g.successors n, m ∈ g.nodes) ∧
    (∀ n, g.isLoopHeader n = true ↔
      ∃ body behind, g.loopBody? n = some body ∧ g.loopExit? n = some behind) ∧
    g.nestedLoops.map (·.1) = ascending (p.loops.map .point) ∧
    (∀ h c body, .loop h c body ∈ p.statements →
      g.nestedLoops.lookup (.point h) = some (ascending (body.loops.map .point))) ∧
    (∀ n, ¬ g.Nests n n) ∧ (∀ n m k, g.Nests n m → g.Nests m k → g.Nests n k) ∧
    ∀ n, ¬ Relation.TransGen g.Nests n n := by
  have hg := ofProgram_of_nodup hp
  refine ⟨_, hg, fun n m => mem_nodes_of_mem_successors hg, fun n => isLoopHeader_iff_ways hg, ?_,
    fun h c body => lookup_nestedLoops hg, not_nests_self hg, fun n m k => nests_trans hg,
    not_transGen_nests_self hg⟩
  rw [nestedLoops, List.map_map, ← loopHeaders_eq hg]
  exact List.map_id _

/-- A loop with two loops in it, one of them behind a choice and with a loop of its own. -/
def nest : Program :=
  .seq (.loop 7 (.var "a") (.seq (.branch 1 (.var "b") (.loop 5 (.var "c")
    (.seq (.loop 2 (.var "d") .skip) (.input 3 "d"))) (.print 4 (.const 0))) (.loop 6 (.var "d") .skip)))
    (.loop 9 (.var "e") .skip)

theorem nestedLoops_exact_nest : nest.labels.Nodup ∧ ∃ g, FlowGraph.ofProgram nest = .ok g ∧
    g.nestedLoops.map (·.1) = [.point 2, .point 5, .point 6, .point 7, .point 9] ∧
    g.nestedLoops.lookup (.point 7) = some [.point 2, .point 5, .point 6] ∧
    g.nestedLoops.lookup (.point 5) = some [.point 2] ∧
    g.nestedLoops.lookup (.point 9) = some [] := by
  have hp : nest.labels.Nodup := by decide
  obtain ⟨g, hg, -, -, hkeys, hinner, -⟩ := nestedLoops_exact hp
  refine ⟨hp, g, hg, hkeys.trans ?_, (hinner 7 _ _ (List.mem_of_getElem? (i := 0) rfl)).trans ?_,
    (hinner 5 _ _ (List.mem_of_getElem? (i := 2) rfl)).trans ?_,
    (hinner 9 _ _ (List.mem_of_getElem? (i := 7) rfl)).trans ?_⟩ <;> decide +kernel

end Pathwise
