import Mathlib.Data.List.Nodup
import Pathwise.Proofs.Trace

/-!
The shape of a built graph.

A program is refused for its first repeated label and for nothing else. Every other program has a graph
that mirrors it (`FlowGraph.Mirrors`): its nodes are the labels between entry and exit, the ways out of
a node are those of its statement, every node lies on a path from entry to exit, and edges run side by
side only behind a choice between nothing and nothing.
-/

namespace Pathwise

/-- The edge without its target. -/
def Edge.opened (e : Edge) : OpenEdge := ⟨e.source, e.guard, e.action, e.way⟩

namespace Program

/-- The statements that carry labels, in the order in which they begin in the text. -/
def statements : Program → List Program
  | skip => []
  | assign l x e => [assign l x e]
  | input l x => [input l x]
  | print l e => [print l e]
  | seq a b => a.statements ++ b.statements
  | branch l c a b => branch l c a b :: (a.statements ++ b.statements)
  | loop l c body => loop l c body :: body.statements

/-- The ways out of the node of a statement: it acts and goes on, or it decides. -/
def ways : Program → List OpenEdge
  | skip | seq _ _ => []
  | assign l x e => [⟨.point l, .const true, .assign x e, .next⟩]
  | input l x => [⟨.point l, .const true, .input x, .next⟩]
  | print l e => [⟨.point l, .const true, .print e, .next⟩]
  | branch l c _ _ => [⟨.point l, c, .skip, .thenArm⟩, ⟨.point l, c.negate, .skip, .elseArm⟩]
  | loop l c _ => [⟨.point l, c, .skip, .body⟩, ⟨.point l, c.negate, .skip, .leave⟩]

/-- The labels before `l` are distinct and `l` is one of them: it is the first to occur again. -/
def FirstRepeat (l : Label) (ls : List Label) : Prop :=
  ∃ before after, ls = before ++ l :: after ∧ before.Nodup ∧ l ∈ before

end Program

/-- The graph is the one that the text of the program describes. -/
structure FlowGraph.Mirrors (g : FlowGraph) (p : Program) : Prop where
  nodes : g.nodes = .entry :: (p.labels.map .point ++ [.exit])
  entry : (g.outgoing .entry).map (·.opened) = [⟨.entry, .const true, .skip, .next⟩]
  ways : ∀ s ∈ p.statements, ∀ l, s.label? = some l → (g.outgoing (.point l)).map (·.opened) = s.ways
  exit : g.outgoing .exit = []
  target : ∀ e ∈ g.edges, e.target ≠ .entry
  reached : ∀ n ∈ g.nodes, ∃ w, g.IsPathFrom .entry n w
  reaches : ∀ n ∈ g.nodes, ∃ w, g.IsPathFrom n .exit w
  distinct : g.edges.Nodup
  parallel : ∀ e ∈ g.edges, ∀ e' ∈ g.edges, e ≠ e' → e.source = e'.source → e.target = e'.target →
    ∃ l c a b, .branch l c a b ∈ p.statements ∧ e.source = .point l ∧ a.isSkip ∧ b.isSkip

open FlowGraph

variable {g : FlowGraph} {p : Program} {k n : Node} {l : Label}

/-! ## The first repeat -/

theorem firstRepeat?_eq_some_iff {seen ls : List Label} :
    Program.firstRepeat? seen ls = some l ↔ ∃ before after, ls = before ++ l :: after ∧
      before.Nodup ∧ (∀ l' ∈ before, l' ∉ seen) ∧ (l ∈ seen ∨ l ∈ before) := by
  induction ls generalizing seen with
  | nil => simp [Program.firstRepeat?]
  | cons x rest ih =>
    by_cases hx : x ∈ seen
    · simp only [Program.firstRepeat?, hx, ↓reduceIte, Option.some.injEq]
      constructor
      · rintro rfl
        exact ⟨[], rest, rfl, .nil, by simp, Or.inl hx⟩
      · rintro ⟨_ | ⟨y, before⟩, after, heq, -, hseen, -⟩
        · exact (List.cons.inj heq).1
        · obtain rfl := (List.cons.inj heq).1
          exact absurd hx (hseen x List.mem_cons_self)
    · simp only [Program.firstRepeat?, hx, ↓reduceIte, ih]
      constructor
      · rintro ⟨before, after, rfl, hnodup, hseen, hl⟩
        refine ⟨x :: before, after, rfl, ?_, ?_, ?_⟩
        · exact List.nodup_cons.2 ⟨fun h => hseen x h List.mem_cons_self, hnodup⟩
        · exact List.forall_mem_cons.2 ⟨hx, fun l' h h' => hseen l' h (List.mem_cons_of_mem _ h')⟩
        · simp only [List.mem_cons] at hl ⊢
          tauto
      · rintro ⟨_ | ⟨y, before⟩, after, heq, hnodup, hseen, hl⟩
        · obtain rfl := (List.cons.inj heq).1
          simp [hx] at hl
        · obtain ⟨rfl, rfl⟩ := List.cons.inj heq
          obtain ⟨hx', hnodup⟩ := List.nodup_cons.1 hnodup
          refine ⟨before, after, rfl, hnodup, fun l' h => ?_, ?_⟩
          · have hne : l' ≠ x := fun e => hx' (e ▸ h)
            simp [hne, hseen l' (List.mem_cons_of_mem _ h)]
          · simp only [List.mem_cons] at hl ⊢
            tauto

theorem ofProgram_eq_error_iff :
    FlowGraph.ofProgram p = .error ⟨l⟩ ↔ Program.FirstRepeat l p.labels := by
  have h := @firstRepeat?_eq_some_iff l [] p.labels
  simp only [List.not_mem_nil, not_false_eq_true, implies_true, true_and, false_or] at h
  rw [Program.FirstRepeat, ← h, FlowGraph.ofProgram]
  cases Program.firstRepeat? [] p.labels <;> simp

/-! ## Nodes and edges -/

theorem nodes_layout (p : Program) (entries : List OpenEdge) :
    (p.layout entries).nodes = p.labels.map .point := by
  induction p generalizing entries with
  | skip => rfl
  | assign l x e => rfl
  | input l x => rfl
  | print l e => rfl
  | seq a b iha ihb => simp [Program.layout, Program.labels, iha, ihb]
  | branch l c a b iha ihb => simp [Program.layout, Program.labels, iha, ihb]
  | loop l c body ih => simp [Program.layout, Program.labels, ih]

/-- Control enters a program at one of its own nodes, or passes by a program that has none. -/
theorem first_cases (p : Program) (k : Node) :
    p.first k = k ∧ p.isSkip = true ∨ ∃ l ∈ p.labels, p.first k = .point l := by
  induction p generalizing k with
  | skip => exact Or.inl ⟨rfl, rfl⟩
  | assign l x e => exact Or.inr ⟨l, by simp [Program.labels], rfl⟩
  | input l x => exact Or.inr ⟨l, by simp [Program.labels], rfl⟩
  | print l e => exact Or.inr ⟨l, by simp [Program.labels], rfl⟩
  | seq a b iha ihb =>
    rcases iha (b.first k) with ⟨ha, hsa⟩ | ⟨l, hl, ha⟩
    · rcases ihb k with ⟨hb, hsb⟩ | ⟨l, hl, hb⟩
      · exact Or.inl ⟨ha.trans hb, by simp [Program.isSkip, hsa, hsb]⟩
      · exact Or.inr ⟨l, by simp [Program.labels, hl], ha.trans hb⟩
    · exact Or.inr ⟨l, by simp [Program.labels, hl], ha⟩
  | branch l c a b => exact Or.inr ⟨l, by simp [Program.labels], rfl⟩
  | loop l c body => exact Or.inr ⟨l, by simp [Program.labels], rfl⟩

/-- Where control enters a program is no node outside it, apart from the one that follows. -/
theorem first_ne {n : Node} (hk : n ≠ k) (hp : ∀ l ∈ p.labels, n ≠ .point l) : n ≠ p.first k := by
  rcases first_cases p k with ⟨h, -⟩ | ⟨l, hl, h⟩
  · rwa [h]
  · rw [h]
    exact hp l hl

/-- The edges of a program lead to its own nodes and to the one that follows. -/
theorem target_ne_of_mem_wires {e : Edge} (he : e ∈ p.wires k) (hk : n ≠ k)
    (hp : ∀ l ∈ p.labels, n ≠ .point l) : n ≠ e.target := by
  induction p generalizing k with
  | skip => simp [Program.wires] at he
  | assign l x a =>
    obtain rfl := List.mem_singleton.1 he
    exact hk
  | input l x =>
    obtain rfl := List.mem_singleton.1 he
    exact hk
  | print l a =>
    obtain rfl := List.mem_singleton.1 he
    exact hk
  | seq a b iha ihb =>
    simp only [Program.labels, List.forall_mem_append] at hp
    rcases List.mem_append.1 he with he | he
    · exact iha he (first_ne hk hp.2) hp.1
    · exact ihb he hk hp.2
  | branch l c a b iha ihb =>
    simp only [Program.labels, List.forall_mem_cons, List.forall_mem_append] at hp
    simp only [Program.wires, Program.fork, List.mem_append, List.mem_cons, List.not_mem_nil,
      or_false] at he
    rcases he with (rfl | rfl) | he | he
    · exact first_ne hk hp.2.1
    · exact first_ne hk hp.2.2
    · exact iha he hk hp.2.1
    · exact ihb he hk hp.2.2
  | loop l c body ih =>
    simp only [Program.labels, List.forall_mem_cons] at hp
    simp only [Program.wires, Program.fork, List.mem_append, List.mem_cons, List.not_mem_nil,
      or_false] at he
    rcases he with (rfl | rfl) | he
    · exact first_ne hp.1 hp.2
    · exact hk
    · exact ih he hp.1 hp.2

theorem target_ne_entry (hg : FlowGraph.ofProgram p = .ok g) {e : Edge} (he : e ∈ g.edges) :
    e.target ≠ .entry := by
  obtain ⟨-, rfl⟩ := ofProgram_eq_ok_iff.1 hg
  have hmem := (edges_layOut_perm p).mem_iff.1 he
  rcases List.mem_cons.1 hmem with rfl | hmem
  · exact (first_ne (by simp) (by simp)).symm
  · exact (target_ne_of_mem_wires hmem (by simp) (by simp)).symm

/-! ## The ways out of a node -/

theorem map_label?_statements (p : Program) : p.statements.map (·.label?) = p.labels.map some := by
  induction p with
  | skip => rfl
  | assign l x e => rfl
  | input l x => rfl
  | print l e => rfl
  | seq a b iha ihb => simp [Program.statements, Program.labels, iha, ihb]
  | branch l c a b iha ihb =>
    simp only [Program.statements, Program.labels, List.map_cons, List.map_append, iha, ihb]
    rfl
  | loop l c body ih =>
    simp only [Program.statements, Program.labels, List.map_cons, ih]
    rfl

theorem exists_statement (hl : l ∈ p.labels) : ∃ s ∈ p.statements, s.label? = some l := by
  have h : some l ∈ p.statements.map (·.label?) := by simpa [map_label?_statements] using hl
  simpa using h

theorem map_opened_outgoing (h : p.WiredIn g k) {s : Program} (hs : s ∈ p.statements)
    (hl : s.label? = some l) : (g.outgoing (.point l)).map (·.opened) = s.ways := by
  induction p generalizing k with
  | skip => simp [Program.statements] at hs
  | assign l' x e =>
    obtain rfl := List.mem_singleton.1 hs
    obtain rfl := Option.some.inj hl
    exact congrArg (·.map (·.opened)) h
  | input l' x =>
    obtain rfl := List.mem_singleton.1 hs
    obtain rfl := Option.some.inj hl
    exact congrArg (·.map (·.opened)) h
  | print l' e =>
    obtain rfl := List.mem_singleton.1 hs
    obtain rfl := Option.some.inj hl
    exact congrArg (·.map (·.opened)) h
  | seq a b iha ihb =>
    rcases List.mem_append.1 hs with hs | hs
    · exact iha h.1 hs
    · exact ihb h.2 hs
  | branch l' c a b iha ihb =>
    simp only [Program.statements, List.mem_cons, List.mem_append] at hs
    rcases hs with rfl | hs | hs
    · obtain rfl := Option.some.inj hl
      exact congrArg (·.map (·.opened)) h.1
    · exact iha h.2.1 hs
    · exact ihb h.2.2 hs
  | loop l' c body ih =>
    simp only [Program.statements, List.mem_cons] at hs
    rcases hs with rfl | hs
    · obtain rfl := Option.some.inj hl
      exact congrArg (·.map (·.opened)) h.1
    · exact ih h.2 hs

theorem outgoing_perm (g : FlowGraph) (n : Node) :
    (g.outgoing n).Perm (g.edges.filter (·.source = n)) := by
  refine List.perm_append_comm.trans ?_
  exact List.filter_append_perm (·.way.isSecond) (g.edges.filter (·.source = n))

theorem mem_outgoing {e : Edge} : e ∈ g.outgoing n ↔ e ∈ g.edges ∧ e.source = n := by
  simp [(outgoing_perm g n).mem_iff]

theorem nodup_ways (s : Program) : s.ways.Nodup := by
  cases s <;> simp [Program.ways]

theorem nodup_outgoing (hg : FlowGraph.ofProgram p = .ok g) (n : Node) : (g.outgoing n).Nodup := by
  cases n with
  | entry => simp [outgoing_entry hg]
  | exit => simp [outgoing_exit hg]
  | point l =>
    by_cases hl : l ∈ p.labels
    · obtain ⟨s, hs, hsl⟩ := exists_statement hl
      refine List.Nodup.of_map (·.opened) ?_
      rw [map_opened_outgoing (wiredIn_of_ofProgram hg) hs hsl]
      exact nodup_ways s
    · simp [outgoing_foreign hg hl]

/-- No edge is laid twice: the edges out of each node are distinct. -/
theorem nodup_edges (hg : FlowGraph.ofProgram p = .ok g) : g.edges.Nodup := by
  rw [List.nodup_iff_count_le_one]
  intro e
  -- Copies of an edge leave the same node, so all of them are among the edges out of it.
  have hcount := List.nodup_iff_count_le_one.1 (nodup_outgoing hg e.source) e
  rwa [(outgoing_perm g e.source).count_eq, List.count_filter (by simp)] at hcount

/-! ## Edges side by side -/

/-- Two arms that control enters at the same node are both empty. -/
theorem isSkip_of_first_eq {a b : Program} (hab : (a.labels ++ b.labels).Nodup)
    (hk : ∀ l ∈ a.labels ++ b.labels, k ≠ .point l) (h : a.first k = b.first k) :
    a.isSkip = true ∧ b.isSkip = true := by
  rcases first_cases a k with ⟨ha, hsa⟩ | ⟨l, hl, ha⟩
  · rcases first_cases b k with ⟨-, hsb⟩ | ⟨l', hl', hb⟩
    · exact ⟨hsa, hsb⟩
    · exact absurd (ha.symm.trans (h.trans hb)) (hk l' (List.mem_append_right _ hl'))
  · have hne : b.first k ≠ .point l := by
      refine (first_ne (hk l (List.mem_append_left _ hl)).symm fun l' hl' he => ?_).symm
      exact (List.nodup_append.1 hab).2.2 l hl l' hl' (Node.point.inj he)
    exact absurd (h.symm.trans ha) hne

theorem eq_of_mem_straight {a : Action} (h : g.outgoing (.point l) = Program.straight l a k)
    {e e' : Edge} (he : e ∈ g.outgoing (.point l)) (he' : e' ∈ g.outgoing (.point l)) : e = e' := by
  rw [h] at he he'
  exact (List.mem_singleton.1 he).trans (List.mem_singleton.1 he').symm

theorem eq_of_mem_fork {c : Cond} {w₁ w₂ : Way} {yes no : Node}
    (h : g.outgoing (.point l) = Program.fork l c w₁ w₂ yes no) {e e' : Edge}
    (he : e ∈ g.outgoing (.point l)) (he' : e' ∈ g.outgoing (.point l)) (hne : e ≠ e')
    (ht : e.target = e'.target) : yes = no := by
  simp only [h, Program.fork, List.mem_cons, List.not_mem_nil, or_false] at he he'
  rcases he with rfl | rfl <;> rcases he' with rfl | rfl
  · exact absurd rfl hne
  · exact ht
  · exact ht.symm
  · exact absurd rfl hne

/-- Two edges from one node to another belong to a choice with empty arms. -/
theorem branch_of_parallel (h : p.WiredIn g k) (hp : p.labels.Nodup)
    (hk : ∀ l ∈ p.labels, k ≠ .point l) (hl : l ∈ p.labels) {e e' : Edge}
    (he : e ∈ g.outgoing (.point l)) (he' : e' ∈ g.outgoing (.point l)) (hne : e ≠ e')
    (ht : e.target = e'.target) :
    ∃ c a b, .branch l c a b ∈ p.statements ∧ a.isSkip ∧ b.isSkip := by
  induction p generalizing k with
  | skip => simp [Program.labels] at hl
  | assign l' x a =>
    obtain rfl := List.mem_singleton.1 hl
    exact absurd (eq_of_mem_straight h he he') hne
  | input l' x =>
    obtain rfl := List.mem_singleton.1 hl
    exact absurd (eq_of_mem_straight h he he') hne
  | print l' a =>
    obtain rfl := List.mem_singleton.1 hl
    exact absurd (eq_of_mem_straight h he he') hne
  | seq a b iha ihb =>
    simp only [Program.labels, List.forall_mem_append] at hk
    obtain ⟨hpa, hpb, hab⟩ := List.nodup_append.1 hp
    rcases List.mem_append.1 hl with hl | hl
    · have hka : ∀ l ∈ a.labels, b.first k ≠ .point l := fun l hl =>
        (first_ne (hk.1 l hl).symm fun l' hl' he => hab l hl l' hl' (Node.point.inj he)).symm
      obtain ⟨c, a', b', hs, hskip⟩ := iha h.1 hpa hka hl
      exact ⟨c, a', b', List.mem_append_left _ hs, hskip⟩
    · obtain ⟨c, a', b', hs, hskip⟩ := ihb h.2 hpb hk.2 hl
      exact ⟨c, a', b', List.mem_append_right _ hs, hskip⟩
  | branch l' c a b iha ihb =>
    simp only [Program.labels, List.forall_mem_cons] at hk
    obtain ⟨-, hab⟩ := List.nodup_cons.1 hp
    simp only [Program.labels, List.mem_cons, List.mem_append] at hl
    rcases hl with rfl | hl | hl
    · have hskip := isSkip_of_first_eq hab hk.2 (eq_of_mem_fork h.1 he he' hne ht)
      exact ⟨c, a, b, List.mem_cons_self, hskip⟩
    · have hka : ∀ l ∈ a.labels, k ≠ .point l := fun l hl => hk.2 l (List.mem_append_left _ hl)
      obtain ⟨c', a', b', hs, hskip⟩ := iha h.2.1 (List.nodup_append.1 hab).1 hka hl
      exact ⟨c', a', b', by simp [Program.statements, hs], hskip⟩
    · have hkb : ∀ l ∈ b.labels, k ≠ .point l := fun l hl => hk.2 l (List.mem_append_right _ hl)
      obtain ⟨c', a', b', hs, hskip⟩ := ihb h.2.2 (List.nodup_append.1 hab).2.1 hkb hl
      exact ⟨c', a', b', by simp [Program.statements, hs], hskip⟩
  | loop l' c body ih =>
    simp only [Program.labels, List.forall_mem_cons] at hk
    obtain ⟨hl', hbody⟩ := List.nodup_cons.1 hp
    rcases List.mem_cons.1 hl with rfl | hl
    -- The way into the body stays in the loop, and the way out leaves it.
    · have hback : k ≠ body.first (.point l) := first_ne hk.1 hk.2
      exact absurd (eq_of_mem_fork h.1 he he' hne ht).symm hback
    · have hkl : ∀ m ∈ body.labels, Node.point l' ≠ .point m := by
        rintro m hm he
        exact hl' (Node.point.inj he ▸ hm)
      obtain ⟨c', a', b', hs, hskip⟩ := ih h.2 hbody hkl hl
      exact ⟨c', a', b', List.mem_cons_of_mem _ hs, hskip⟩

theorem branch_of_mem_edges (hg : FlowGraph.ofProgram p = .ok g) {e e' : Edge} (he : e ∈ g.edges)
    (he' : e' ∈ g.edges) (hne : e ≠ e') (hs : e.source = e'.source) (ht : e.target = e'.target) :
    ∃ l c a b, .branch l c a b ∈ p.statements ∧ e.source = .point l ∧ a.isSkip ∧ b.isSkip := by
  have hout : e ∈ g.outgoing e.source := mem_outgoing.2 ⟨he, rfl⟩
  have hout' : e' ∈ g.outgoing e.source := mem_outgoing.2 ⟨he', hs.symm⟩
  cases hn : e.source with
  | entry =>
    simp only [hn, outgoing_entry hg, List.mem_singleton] at hout hout'
    exact absurd (hout.trans hout'.symm) hne
  | exit => simp [hn, outgoing_exit hg] at hout
  | point l =>
    rw [hn] at hout hout'
    have hl : l ∈ p.labels := by
      by_contra hl
      simp [outgoing_foreign hg hl] at hout
    obtain ⟨c, a, b, hs, hskip⟩ := branch_of_parallel (wiredIn_of_ofProgram hg)
      (ofProgram_eq_ok_iff.1 hg).1 (by simp) hl hout hout' hne ht
    exact ⟨l, c, a, b, hs, rfl, hskip⟩

/-! ## Every node lies on a path -/

theorem exists_isTrace (p : Program) : ∃ t, p.IsTrace t := by
  induction p with
  | skip => exact ⟨[], rfl⟩
  | assign l x e => exact ⟨[l], rfl⟩
  | input l x => exact ⟨[l], rfl⟩
  | print l e => exact ⟨[l], rfl⟩
  | seq a b iha ihb =>
    obtain ⟨u, hu⟩ := iha
    obtain ⟨v, hv⟩ := ihb
    exact ⟨u ++ v, u, v, hu, hv, rfl⟩
  | branch l c a b iha _ =>
    obtain ⟨u, hu⟩ := iha
    exact ⟨l :: u, u, Or.inl hu, rfl⟩
  | loop l c body _ => exact ⟨[l], [], by simp, rfl⟩

theorem exists_isTrace_mem (hl : l ∈ p.labels) : ∃ t, p.IsTrace t ∧ l ∈ t := by
  induction p with
  | skip => simp [Program.labels] at hl
  | assign l' x e => exact ⟨[l'], rfl, hl⟩
  | input l' x => exact ⟨[l'], rfl, hl⟩
  | print l' e => exact ⟨[l'], rfl, hl⟩
  | seq a b iha ihb =>
    rcases List.mem_append.1 hl with hl | hl
    · obtain ⟨u, hu, hlu⟩ := iha hl
      obtain ⟨v, hv⟩ := exists_isTrace b
      exact ⟨u ++ v, ⟨u, v, hu, hv, rfl⟩, List.mem_append_left _ hlu⟩
    · obtain ⟨u, hu⟩ := exists_isTrace a
      obtain ⟨v, hv, hlv⟩ := ihb hl
      exact ⟨u ++ v, ⟨u, v, hu, hv, rfl⟩, List.mem_append_right _ hlv⟩
  | branch l' c a b iha ihb =>
    simp only [Program.labels, List.mem_cons, List.mem_append] at hl
    rcases hl with rfl | hl | hl
    · obtain ⟨u, hu⟩ := exists_isTrace a
      exact ⟨l :: u, ⟨u, Or.inl hu, rfl⟩, List.mem_cons_self⟩
    · obtain ⟨u, hu, hlu⟩ := iha hl
      exact ⟨l' :: u, ⟨u, Or.inl hu, rfl⟩, List.mem_cons_of_mem _ hlu⟩
    · obtain ⟨u, hu, hlu⟩ := ihb hl
      exact ⟨l' :: u, ⟨u, Or.inr hu, rfl⟩, List.mem_cons_of_mem _ hlu⟩
  | loop l' c body ih =>
    rcases List.mem_cons.1 hl with rfl | hl
    · exact ⟨[l], ⟨[], by simp, rfl⟩, List.mem_singleton.2 rfl⟩
    · obtain ⟨u, hu, hlu⟩ := ih hl
      refine ⟨l' :: u ++ [l'], ⟨[u], by simpa using hu, by simp⟩, ?_⟩
      simp [hlu]

/-- Every node stands on a path from the entry to the exit. -/
theorem exists_path_through (hg : FlowGraph.ofProgram p = .ok g)
    (hn : n ∈ Node.entry :: (p.labels.map .point ++ [.exit])) :
    ∃ v w, g.IsPathFrom .entry .exit (v ++ n :: w) := by
  obtain ⟨t, ht, hnt⟩ : ∃ t, p.IsTrace t ∧ n ∈ Node.entry :: (t.map .point ++ [.exit]) := by
    simp only [List.mem_cons, List.mem_append, List.mem_map, List.not_mem_nil, or_false] at hn
    rcases hn with rfl | ⟨l, hl, rfl⟩ | rfl
    · obtain ⟨t, ht⟩ := exists_isTrace p
      exact ⟨t, ht, List.mem_cons_self⟩
    · obtain ⟨t, ht, hlt⟩ := exists_isTrace_mem hl
      exact ⟨t, ht, by simp [hlt]⟩
    · obtain ⟨t, ht⟩ := exists_isTrace p
      exact ⟨t, ht, by simp⟩
  obtain ⟨v, w, hvw⟩ := List.append_of_mem hnt
  exact ⟨v, w, hvw ▸ (isPathFrom_entry_exit_iff hg).2 ⟨t, ht, rfl⟩⟩

/-! ## Built graphs -/

theorem nodes_ofProgram (hg : FlowGraph.ofProgram p = .ok g) :
    g.nodes = .entry :: (p.labels.map .point ++ [.exit]) := by
  obtain ⟨-, rfl⟩ := ofProgram_eq_ok_iff.1 hg
  simp only [FlowGraph.layOut, nodes_layout]

theorem source_mem_nodes (hg : FlowGraph.ofProgram p = .ok g) {e : Edge} (he : e ∈ g.edges) :
    e.source ∈ g.nodes := by
  rw [nodes_ofProgram hg]
  obtain ⟨-, rfl⟩ := ofProgram_eq_ok_iff.1 hg
  rcases List.mem_cons.1 ((edges_layOut_perm p).mem_iff.1 he) with rfl | he
  · exact List.mem_cons_self
  · obtain ⟨l, hl, hs⟩ := source_of_mem_wires he
    simp [hs, hl]

theorem mem_nodes_of_mem_successors (hg : FlowGraph.ofProgram p = .ok g) {m : Node}
    (hm : m ∈ g.successors n) : m ∈ g.nodes := by
  obtain ⟨e, he, rfl⟩ := mem_successors.1 hm
  by_contra hout
  rw [nodes_ofProgram hg] at hout
  simp only [List.mem_cons, List.mem_append, List.mem_map, List.not_mem_nil, or_false, not_or,
    not_exists, not_and] at hout
  obtain ⟨-, rfl⟩ := ofProgram_eq_ok_iff.1 hg
  have hfree : ∀ l ∈ p.labels, e.target ≠ .point l := fun l hl he => hout.2.1 l hl he.symm
  rcases List.mem_cons.1 ((edges_layOut_perm p).mem_iff.1 (mem_outgoing.1 he).1) with rfl | he
  · exact first_ne hout.2.2 hfree rfl
  · exact target_ne_of_mem_wires he hout.2.2 hfree rfl

theorem FlowGraph.IsPathFrom.mem_nodes {m : Node} {w : Path}
    (hg : FlowGraph.ofProgram p = .ok g) (hw : g.IsPathFrom n m w) (hn : n ∈ g.nodes) : m ∈ g.nodes := by
  induction w generalizing n with
  | nil => cases hw.head
  | cons _ w ih =>
    by_cases hnm : n = m
    · exact hnm ▸ hn
    · obtain ⟨k, hk, v, heq, hv⟩ := hw.uncons hnm
      obtain ⟨rfl, rfl⟩ := List.cons.inj heq
      exact ih hv (mem_nodes_of_mem_successors hg hk)

theorem mirrors_ofProgram (hg : FlowGraph.ofProgram p = .ok g) : g.Mirrors p where
  nodes := nodes_ofProgram hg
  entry := by
    rw [outgoing_entry hg]
    rfl
  ways _ hs _ hl := map_opened_outgoing (wiredIn_of_ofProgram hg) hs hl
  exit := outgoing_exit hg
  target _ := target_ne_entry hg
  reached n hn := by
    obtain ⟨v, w, h⟩ := exists_path_through hg (nodes_ofProgram hg ▸ hn)
    exact ⟨_, h.split.1⟩
  reaches n hn := by
    obtain ⟨v, w, h⟩ := exists_path_through hg (nodes_ofProgram hg ▸ hn)
    exact ⟨_, h.split.2⟩
  distinct := nodup_edges hg
  parallel _ he _ he' := branch_of_mem_edges hg he he'

/-- Every path of the graph is part of a path from the entry to the exit. -/
theorem exists_path_around (hg : FlowGraph.ofProgram p = .ok g) {m : Node} {w : Path}
    (hn : n ∈ g.nodes) (hw : g.IsPathFrom n m w) :
    ∃ before after, g.IsPathFrom .entry .exit (before ++ (w ++ after)) := by
  obtain ⟨v, hv⟩ := (mirrors_ofProgram hg).reached n hn
  obtain ⟨z, hz⟩ := (mirrors_ofProgram hg).reaches m (hw.mem_nodes hg hn)
  obtain ⟨before, rfl⟩ := hv.eq_concat
  obtain ⟨t, rfl⟩ := hw.eq_cons
  obtain ⟨after, rfl⟩ := hz.eq_cons
  exact ⟨before, after, by simpa using (hv.trans hw).trans hz⟩

/-- A program is refused exactly if a label repeats, for the first label that does; otherwise it has a
graph, which mirrors it. -/
theorem ofProgram_mirrors (p : Program) :
    ((∃ e, FlowGraph.ofProgram p = .error e) ↔ ¬ p.labels.Nodup) ∧
    (∀ l, FlowGraph.ofProgram p = .error ⟨l⟩ ↔ Program.FirstRepeat l p.labels) ∧
    ∀ g, FlowGraph.ofProgram p = .ok g → g.Mirrors p := by
  refine ⟨?_, fun l => ofProgram_eq_error_iff, fun g => mirrors_ofProgram⟩
  cases h : FlowGraph.ofProgram p with
  | error e =>
    have hp : ¬ p.labels.Nodup := fun hp => by simp [ofProgram_of_nodup hp] at h
    simp [hp]
  | ok g => simp [(ofProgram_eq_ok_iff.1 h).1]

end Pathwise
