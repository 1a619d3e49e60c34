import Pathwise.FlowGraph.Construction

/-!
The flow graph of a program, read from the back.

A layout hands open edges forward, so where an edge leads is settled only by the statement after it.
Here a statement is told the node `k` that follows it: `first k` is the node at which control enters,
and `wires k` lists the edges with their targets. `closed_layout_perm` says that a layout makes exactly
these edges, and `wiredIn_of_ofProgram` reads off the ways out of every node of a built graph.
-/

namespace Pathwise

namespace Program

/-- The node at which control enters the program when `k` follows it. -/
def first : Program → Node → Node
  | skip, k => k
  | assign l _ _, _ | input l _, _ | print l _, _ | branch l _ _ _, _ | loop l _ _, _ => .point l
  | seq a b, k => a.first (b.first k)

/-- The one edge out of a statement that acts and goes on to `k`. -/
def straight (l : Label) (a : Action) (k : Node) : List Edge :=
  [⟨.point l, k, .const true, a, .next⟩]

/-- The edges out of a decision: to `yes` where `c` holds, to `no` where it fails. -/
def fork (l : Label) (c : Cond) (w₁ w₂ : Way) (yes no : Node) : List Edge :=
  [⟨.point l, yes, c, .skip, w₁⟩, ⟨.point l, no, c.negate, .skip, w₂⟩]

/-- The edges of the program when `k` follows it. -/
def wires : Program → Node → List Edge
  | skip, _ => []
  | assign l x e, k => straight l (.assign x e) k
  | input l x, k => straight l (.input x) k
  | print l e, k => straight l (.print e) k
  | seq a b, k => a.wires (b.first k) ++ b.wires k
  | branch l c a b, k =>
    fork l c .thenArm .elseArm (a.first k) (b.first k) ++ (a.wires k ++ b.wires k)
  | loop l c body, k =>
    fork l c .body .leave (body.first (.point l)) k ++ body.wires (.point l)

/-- The program stands in the graph before `k`: the ways out of its nodes are its own edges. -/
def WiredIn (g : FlowGraph) : Program → Node → Prop
  | skip, _ => True
  | assign l x e, k => g.outgoing (.point l) = straight l (.assign x e) k
  | input l x, k => g.outgoing (.point l) = straight l (.input x) k
  | print l e, k => g.outgoing (.point l) = straight l (.print e) k
  | seq a b, k => a.WiredIn g (b.first k) ∧ b.WiredIn g k
  | branch l c a b, k =>
    g.outgoing (.point l) = fork l c .thenArm .elseArm (a.first k) (b.first k) ∧
      a.WiredIn g k ∧ b.WiredIn g k
  | loop l c body, k =>
    g.outgoing (.point l) = fork l c .body .leave (body.first (.point l)) k ∧
      body.WiredIn g (.point l)

end Program

/-- The edges of a layout whose open edges all lead to `k`. -/
def Layout.closed (L : Layout) (k : Node) : List Edge :=
  L.edges ++ L.exits.map (·.to k)

/-! ## A layout makes the wires of its program -/

/-- Up to order, closing a layout on `k` joins its entries to the first node and adds the wires. -/
theorem closed_layout_perm (p : Program) (entries : List OpenEdge) (k : Node) :
    ((p.layout entries).closed k).Perm (entries.map (·.to (p.first k)) ++ p.wires k) := by
  induction p generalizing entries k with
  | skip => simp [Program.layout, Layout.closed, Program.first, Program.wires]
  | assign l x e => exact .refl _
  | input l x => exact .refl _
  | print l e => exact .refl _
  | seq a b iha ihb =>
    have ha := iha entries (b.first k)
    have hb := ihb (a.layout entries).exits k
    simp only [Layout.closed] at ha hb
    simp only [Program.layout, Layout.closed, Program.first, Program.wires, List.append_assoc]
    refine (List.Perm.append_left _ hb).trans ?_
    rw [← List.append_assoc, ← List.append_assoc]
    exact ha.append_right _
  | branch l c a b iha ihb =>
    have ha := iha [⟨.point l, c, .skip, .thenArm⟩] k
    have hb := ihb [⟨.point l, c.negate, .skip, .elseArm⟩] k
    simp only [Layout.closed, List.map_cons, List.map_nil, List.cons_append, List.nil_append] at ha hb
    simp only [Program.layout, Layout.closed, Program.first, Program.wires, Program.fork,
      List.map_append, List.append_assoc, List.cons_append, List.nil_append]
    refine List.Perm.append_left _ ?_
    -- The edges of the second arm stand between those of the first arm and its exits.
    refine (List.perm_append_left_iff _).2 (List.perm_append_comm_assoc _ _ _) |>.trans ?_
    rw [← List.append_assoc]
    refine (ha.append hb).trans ?_
    simp only [List.cons_append]
    exact (List.perm_middle.cons _)
  | loop l c body ih =>
    have hb := ih [⟨.point l, c, .skip, .body⟩] (.point l)
    simp only [Layout.closed, List.map_cons, List.map_nil, List.cons_append, List.nil_append] at hb
    simp only [Program.layout, Layout.closed, Program.first, Program.wires, Program.fork,
      List.map_cons, List.map_nil, List.append_assoc, List.cons_append, List.nil_append]
    refine List.Perm.append_left _ ?_
    rw [← List.append_assoc]
    refine (hb.append_right _).trans ?_
    simp only [List.cons_append]
    exact (List.perm_append_singleton _ _).cons _

/-- Every edge of a program leaves one of its own nodes. -/
theorem source_of_mem_wires {p : Program} {k : Node} {e : Edge} (h : e ∈ p.wires k) :
    ∃ l ∈ p.labels, e.source = .point l := by
  induction p generalizing k with
  | skip => simp [Program.wires] at h
  | assign l x a => simp_all [Program.wires, Program.straight, Program.labels]
  | input l x => simp_all [Program.wires, Program.straight, Program.labels]
  | print l a => simp_all [Program.wires, Program.straight, Program.labels]
  | seq a b iha ihb =>
    simp only [Program.labels, List.mem_append]
    rcases List.mem_append.1 h with h | h
    · obtain ⟨l, hl, he⟩ := iha h
      exact ⟨l, Or.inl hl, he⟩
    · obtain ⟨l, hl, he⟩ := ihb h
      exact ⟨l, Or.inr hl, he⟩
  | branch l c a b iha ihb =>
    simp only [Program.labels, List.mem_cons, List.mem_append]
    simp only [Program.wires, List.mem_append] at h
    rcases h with h | h | h
    · refine ⟨l, Or.inl rfl, ?_⟩
      simp only [Program.fork, List.mem_cons, List.not_mem_nil, or_false] at h
      rcases h with rfl | rfl <;> rfl
    · obtain ⟨l', hl, he⟩ := iha h
      exact ⟨l', Or.inr (Or.inl hl), he⟩
    · obtain ⟨l', hl, he⟩ := ihb h
      exact ⟨l', Or.inr (Or.inr hl), he⟩
  | loop l c body ih =>
    simp only [Program.labels, List.mem_cons]
    simp only [Program.wires, List.mem_append] at h
    rcases h with h | h
    · refine ⟨l, Or.inl rfl, ?_⟩
      simp only [Program.fork, List.mem_cons, List.not_mem_nil, or_false] at h
      rcases h with rfl | rfl <;> rfl
    · obtain ⟨l', hl, he⟩ := ih h
      exact ⟨l', Or.inr hl, he⟩

theorem filter_wires_eq_nil {p : Program} {k n : Node} (h : ∀ l ∈ p.labels, n ≠ .point l) :
    (p.wires k).filter (·.source = n) = [] := by
  rw [List.filter_eq_nil_iff]
  intro e he
  obtain ⟨l, hl, hs⟩ := source_of_mem_wires he
  have hn := h l hl
  simp [hs, hn.symm]

/-! ## The ways out of a node -/

theorem outgoing_eq_nil {g : FlowGraph} {n : Node} (h : g.edges.filter (·.source = n) = []) :
    g.outgoing n = [] := by
  simp [FlowGraph.outgoing, h]

theorem outgoing_eq_one {g : FlowGraph} {n : Node} {e : Edge}
    (h : (g.edges.filter (·.source = n)).Perm [e]) : g.outgoing n = [e] := by
  rw [List.perm_singleton] at h
  cases hw : e.way.isSecond <;> simp [FlowGraph.outgoing, h, hw]

theorem outgoing_eq_two {g : FlowGraph} {n : Node} {e₁ e₂ : Edge}
    (h : (g.edges.filter (·.source = n)).Perm [e₁, e₂])
    (h₁ : e₁.way.isSecond = false) (h₂ : e₂.way.isSecond = true) : g.outgoing n = [e₁, e₂] := by
  have hfirst := h.filter fun e => !e.way.isSecond
  have hsecond := h.filter fun e => e.way.isSecond
  simp only [List.filter_cons, List.filter_nil, h₁, h₂, Bool.not_true, Bool.not_false,
    Bool.false_eq_true, ↓reduceIte, List.perm_singleton] at hfirst hsecond
  simp only [FlowGraph.outgoing, hfirst, hsecond, List.cons_append, List.nil_append]

/-- A program is wired into a graph whose edges out of its nodes are, up to order, its wires. -/
theorem wiredIn_of_filter_perm {g : FlowGraph} {p : Program} {k : Node} (hp : p.labels.Nodup)
    (h : ∀ l ∈ p.labels, (g.edges.filter (·.source = .point l)).Perm
      ((p.wires k).filter (·.source = .point l))) : p.WiredIn g k := by
  induction p generalizing k with
  | skip => trivial
  | assign l x e =>
    exact outgoing_eq_one (by simpa [Program.wires, Program.straight, Program.labels] using h)
  | input l x =>
    exact outgoing_eq_one (by simpa [Program.wires, Program.straight, Program.labels] using h)
  | print l e =>
    exact outgoing_eq_one (by simpa [Program.wires, Program.straight, Program.labels] using h)
  | seq a b iha ihb =>
    simp only [Program.labels, List.nodup_append, List.mem_append] at hp h
    obtain ⟨ha, hb, hab⟩ := hp
    refine ⟨iha ha fun l hl => ?_, ihb hb fun l hl => ?_⟩
    · have hl' := h l (Or.inl hl)
      rw [Program.wires, List.filter_append, filter_wires_eq_nil (p := b), List.append_nil] at hl'
      · exact hl'
      · intro l' hl'' he
        exact hab l hl l' hl'' (Node.point.inj he)
    · have hl' := h l (Or.inr hl)
      rw [Program.wires, List.filter_append, filter_wires_eq_nil (p := a), List.nil_append] at hl'
      · exact hl'
      · intro l' hl'' he
        exact hab l' hl'' l hl (Node.point.inj he).symm
  | branch l c a b iha ihb =>
    simp only [Program.labels, List.nodup_cons, List.nodup_append, List.mem_cons,
      List.mem_append, not_or] at hp h
    obtain ⟨⟨hla, hlb⟩, ha, hb, hab⟩ := hp
    have hne : ∀ l', l' ≠ l → (Program.fork l c .thenArm .elseArm (a.first k) (b.first k)).filter
        (·.source = .point l') = [] := by
      intro l' hl'
      simp [Program.fork, Ne.symm hl']
    refine ⟨outgoing_eq_two ?_ rfl rfl, iha ha fun l' hl' => ?_, ihb hb fun l' hl' => ?_⟩
    · have hl := h l (Or.inl rfl)
      rw [Program.wires, List.filter_append, List.filter_append, filter_wires_eq_nil (p := a),
        filter_wires_eq_nil (p := b)] at hl
      · simpa [Program.fork] using hl
      · intro l' hl' he
        exact hlb (Node.point.inj he ▸ hl')
      · intro l' hl' he
        exact hla (Node.point.inj he ▸ hl')
    · have hl := h l' (Or.inr (Or.inl hl'))
      rw [Program.wires, List.filter_append, List.filter_append, hne l' (fun e => hla (e ▸ hl')),
        filter_wires_eq_nil (p := b), List.nil_append, List.append_nil] at hl
      · exact hl
      · intro l'' hl'' he
        exact hab l' hl' l'' hl'' (Node.point.inj he)
    · have hl := h l' (Or.inr (Or.inr hl'))
      rw [Program.wires, List.filter_append, List.filter_append, hne l' (fun e => hlb (e ▸ hl')),
        filter_wires_eq_nil (p := a), List.nil_append, List.nil_append] at hl
      · exact hl
      · intro l'' hl'' he
        exact hab l'' hl'' l' hl' (Node.point.inj he).symm
  | loop l c body ih =>
    simp only [Program.labels, List.nodup_cons, List.mem_cons] at hp h
    obtain ⟨hlb, hb⟩ := hp
    refine ⟨outgoing_eq_two ?_ rfl rfl, ih hb fun l' hl' => ?_⟩
    · have hl := h l (Or.inl rfl)
      rw [Program.wires, List.filter_append, filter_wires_eq_nil (p := body)] at hl
      · simpa [Program.fork] using hl
      · intro l' hl' he
        exact hlb (Node.point.inj he ▸ hl')
    · have hl := h l' (Or.inr hl')
      have hne : l ≠ l' := fun e => hlb (e ▸ hl')
      rw [Program.wires, List.filter_append] at hl
      simpa [Program.fork, hne] using hl

/-! ## Built graphs -/

theorem firstRepeat?_eq_none_iff {seen ls : List Label} :
    Program.firstRepeat? seen ls = none ↔ ls.Nodup ∧ ∀ l ∈ ls, l ∉ seen := by
  induction ls generalizing seen with
  | nil => simp [Program.firstRepeat?]
  | cons l rest ih =>
    by_cases hl : l ∈ seen
    · simp [Program.firstRepeat?, hl]
    · simp only [Program.firstRepeat?, hl, ↓reduceIte, ih, List.mem_cons, not_or, List.nodup_cons,
        forall_eq_or_imp, not_false_eq_true, true_and]
      constructor
      · rintro ⟨hr, hs⟩
        exact ⟨⟨fun h => (hs l h).1 rfl, hr⟩, fun l' h => (hs l' h).2⟩
      · rintro ⟨⟨hl', hr⟩, hs⟩
        exact ⟨hr, fun l' h => ⟨fun e => hl' (e ▸ h), hs l' h⟩⟩

/-- A program has a flow graph exactly if its labels are distinct. -/
theorem ofProgram_eq_ok_iff {p : Program} {g : FlowGraph} :
    FlowGraph.ofProgram p = .ok g ↔ p.labels.Nodup ∧ g = FlowGraph.layOut p := by
  unfold FlowGraph.ofProgram
  have hr := @firstRepeat?_eq_none_iff [] p.labels
  cases h : Program.firstRepeat? [] p.labels with
  | none =>
    have hp := (hr.1 h).1
    simp [hp, eq_comm]
  | some l =>
    have hp : ¬ p.labels.Nodup := fun hp => by simp [hr.2 ⟨hp, by simp⟩] at h
    simp [hp]

theorem ofProgram_of_nodup {p : Program} (hp : p.labels.Nodup) :
    FlowGraph.ofProgram p = .ok (FlowGraph.layOut p) :=
  ofProgram_eq_ok_iff.2 ⟨hp, rfl⟩

/-- The edge by which a run sets out. -/
def Program.entryEdge (p : Program) : Edge :=
  ⟨.entry, p.first .exit, .const true, .skip, .next⟩

theorem edges_layOut_perm (p : Program) :
    (FlowGraph.layOut p).edges.Perm (p.entryEdge :: p.wires .exit) :=
  closed_layout_perm p [⟨.entry, .const true, .skip, .next⟩] .exit

section
variable {p : Program} {g : FlowGraph}

theorem filter_edges_perm (hg : FlowGraph.ofProgram p = .ok g) (n : Node) :
    (g.edges.filter (·.source = n)).Perm
      ((p.entryEdge :: p.wires .exit).filter (·.source = n)) := by
  obtain ⟨-, rfl⟩ := ofProgram_eq_ok_iff.1 hg
  exact (edges_layOut_perm p).filter _

theorem outgoing_entry (hg : FlowGraph.ofProgram p = .ok g) : g.outgoing .entry = [p.entryEdge] := by
  refine outgoing_eq_one ?_
  have h := filter_edges_perm hg .entry
  rwa [List.filter_cons_of_pos (by simp [Program.entryEdge]),
    filter_wires_eq_nil (by simp)] at h

theorem outgoing_exit (hg : FlowGraph.ofProgram p = .ok g) : g.outgoing .exit = [] := by
  refine outgoing_eq_nil ?_
  have h := filter_edges_perm hg .exit
  rw [List.filter_cons_of_neg (by simp [Program.entryEdge]),
    filter_wires_eq_nil (by simp)] at h
  exact h.eq_nil

theorem outgoing_foreign (hg : FlowGraph.ofProgram p = .ok g) {l : Label} (hl : l ∉ p.labels) :
    g.outgoing (.point l) = [] := by
  refine outgoing_eq_nil ?_
  have h := filter_edges_perm hg (.point l)
  rw [List.filter_cons_of_neg (by simp [Program.entryEdge]), filter_wires_eq_nil] at h
  · exact h.eq_nil
  · intro l' hl' he
    exact hl (Node.point.inj he ▸ hl')

/-- A program is wired into its own flow graph, before the exit. -/
theorem wiredIn_of_ofProgram (hg : FlowGraph.ofProgram p = .ok g) : p.WiredIn g .exit := by
  refine wiredIn_of_filter_perm (ofProgram_eq_ok_iff.1 hg).1 fun l _ => ?_
  have h := filter_edges_perm hg (.point l)
  rwa [List.filter_cons_of_neg (by simp [Program.entryEdge])] at h

end

/-! ## Fans -/

/-- How edges leave a node: not at all, by one edge that is always open, or by two that do nothing and
of which the second is open where the first is not. -/
inductive Fan (n : Node) : List Edge → Prop
  | nil : Fan n []
  | straight (a : Action) (k : Node) : Fan n [⟨n, k, .const true, a, .next⟩]
  | fork (c : Cond) (w₁ w₂ : Way) (yes no : Node) :
    Fan n [⟨n, yes, c, .skip, w₁⟩, ⟨n, no, c.negate, .skip, w₂⟩]

theorem fan_of_wiredIn {g : FlowGraph} {p : Program} {k : Node} {l : Label} (h : p.WiredIn g k)
    (hl : l ∈ p.labels) : Fan (.point l) (g.outgoing (.point l)) := by
  induction p generalizing k with
  | skip => simp [Program.labels] at hl
  | assign l' x e =>
    obtain rfl : l = l' := by simpa [Program.labels] using hl
    exact h ▸ .straight _ _
  | input l' x =>
    obtain rfl : l = l' := by simpa [Program.labels] using hl
    exact h ▸ .straight _ _
  | print l' e =>
    obtain rfl : l = l' := by simpa [Program.labels] using hl
    exact h ▸ .straight _ _
  | seq a b iha ihb =>
    rcases List.mem_append.1 hl with hl | hl
    · exact iha h.1 hl
    · exact ihb h.2 hl
  | branch l' c a b iha ihb =>
    simp only [Program.labels, List.mem_cons, List.mem_append] at hl
    rcases hl with rfl | hl | hl
    · exact h.1 ▸ .fork _ _ _ _ _
    · exact iha h.2.1 hl
    · exact ihb h.2.2 hl
  | loop l' c body ih =>
    simp only [Program.labels, List.mem_cons] at hl
    rcases hl with rfl | hl
    · exact h.1 ▸ .fork _ _ _ _ _
    · exact ih h.2 hl

/-- Every node of a built graph is left by a fan. -/
theorem fan_outgoing {p : Program} {g : FlowGraph} (hg : FlowGraph.ofProgram p = .ok g) (n : Node) :
    Fan n (g.outgoing n) := by
  cases n with
  | entry => exact outgoing_entry hg ▸ .straight _ _
  | exit => exact outgoing_exit hg ▸ .nil
  | point l =>
    by_cases hl : l ∈ p.labels
    · exact fan_of_wiredIn (wiredIn_of_ofProgram hg) hl
    · exact outgoing_foreign hg hl ▸ .nil

end Pathwise
