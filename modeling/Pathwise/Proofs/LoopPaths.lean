import Mathlib.Data.List.Perm.Subperm
import Mathlib.Tactic.Ring
import Pathwise.Proofs.Backtracking
import Pathwise.Proofs.Nesting

/-!
The paths with bounded loops are the traces with bounded loops.

A loop starts to count when it is reached from outside: since then the header around it has been
passed, and that has cleared its count. So in front of a program all its loops stand at zero, and what
goes on inside changes no other count (`Through`). Every bounded trace can then be followed
(`exists_through`), and a chain of states that starts in front of a program is either still inside it,
and short, or has gone through it along a bounded trace (`inside_or_through`). The chains have a
greatest length, so the enumeration ends by itself and the depth it is given cuts nothing off.
-/

namespace Pathwise

/-! ## Bounded traces -/

namespace Program

/-- Control may go through the labels `t`, every loop running its body at most `i` times each time it is
reached from outside. -/
def IsTraceWithin (i : Nat) : Program → List Label → Prop
  | skip, t => t = []
  | assign l _ _, t | input l _, t | print l _, t => t = [l]
  | seq a b, t => ∃ u v, a.IsTraceWithin i u ∧ b.IsTraceWithin i v ∧ t = u ++ v
  | branch l _ a b, t => ∃ u, (a.IsTraceWithin i u ∨ b.IsTraceWithin i u) ∧ t = l :: u
  | loop l _ body, t =>
    ∃ rounds : List (List Label), rounds.length ≤ i ∧
      (∀ u ∈ rounds, body.IsTraceWithin i u) ∧ t = rounds.flatMap (l :: ·) ++ [l]

/-- No trace with loops bounded by `i` is longer. -/
def span (i : Nat) : Program → Nat
  | skip => 0
  | assign _ _ _ | input _ _ | print _ _ => 1
  | seq a b => a.span i + b.span i
  | branch _ _ a b => 1 + max (a.span i) (b.span i)
  | loop _ _ body => i * (1 + body.span i) + 1

end Program

variable {g : FlowGraph} {p : Program} {k n : Node} {i j d : Nat} {l : Label} {u v : List Label}

theorem length_flatMap_cons_le {m : Nat} {rounds : List (List Label)}
    (h : ∀ u ∈ rounds, u.length ≤ m) : (rounds.flatMap (l :: ·)).length ≤ rounds.length * (1 + m) := by
  induction rounds with
  | nil => simp
  | cons u rounds ih =>
    have hu := h u List.mem_cons_self
    have hrest := ih fun v hv => h v (List.mem_cons_of_mem _ hv)
    simp only [List.flatMap_cons, List.length_append, List.length_cons, Nat.add_mul]
    omega

theorem Program.IsTraceWithin.isTrace (hu : p.IsTraceWithin i u) : p.IsTrace u := by
  induction p generalizing u with
  | skip => exact hu
  | assign l x e => exact hu
  | input l x => exact hu
  | print l e => exact hu
  | seq a b iha ihb =>
    obtain ⟨v, w, hv, hw, rfl⟩ := hu
    exact ⟨v, w, iha hv, ihb hw, rfl⟩
  | branch l c a b iha ihb =>
    obtain ⟨v, hv, rfl⟩ := hu
    exact ⟨v, hv.imp iha ihb, rfl⟩
  | loop l c body ih =>
    obtain ⟨rounds, -, hbody, rfl⟩ := hu
    exact ⟨rounds, fun v hv => ih (hbody v hv), rfl⟩

theorem Program.IsTraceWithin.length_le_span (hu : p.IsTraceWithin i u) : u.length ≤ p.span i := by
  induction p generalizing u with
  | skip => simp_all [Program.IsTraceWithin]
  | assign l x e => simp_all [Program.IsTraceWithin, Program.span]
  | input l x => simp_all [Program.IsTraceWithin, Program.span]
  | print l e => simp_all [Program.IsTraceWithin, Program.span]
  | seq a b iha ihb =>
    obtain ⟨u, v, hu, hv, rfl⟩ := hu
    rw [List.length_append]
    exact Nat.add_le_add (iha hu) (ihb hv)
  | branch l c a b iha ihb =>
    obtain ⟨u, hu | hu, rfl⟩ := hu
    · have := iha hu
      simp only [Program.span, List.length_cons]
      omega
    · have := ihb hu
      simp only [Program.span, List.length_cons]
      omega
  | loop l c body ih =>
    obtain ⟨rounds, hlen, hrounds, rfl⟩ := hu
    have hall := length_flatMap_cons_le (l := l) fun u hu => ih (hrounds u hu)
    have hmul := Nat.mul_le_mul_right (1 + body.span i) hlen
    simp only [Program.span, List.length_append, List.length_singleton]
    omega

/-- The span grows with the labels, and by a factor for every loop. -/
theorem span_le {m : Nat} (hm : p.loops.length ≤ m) :
    p.span i ≤ p.labels.length * (i + 1) ^ m := by
  have hpos : ∀ m, 1 ≤ (i + 1) ^ m := fun m => Nat.pow_pos (Nat.succ_pos i)
  induction p generalizing m with
  | skip => simp [Program.span]
  | assign l x e => exact (hpos m).trans_eq (Nat.one_mul _).symm
  | input l x => exact (hpos m).trans_eq (Nat.one_mul _).symm
  | print l e => exact (hpos m).trans_eq (Nat.one_mul _).symm
  | seq a b iha ihb =>
    simp only [Program.loops, List.length_append] at hm
    simp only [Program.span, Program.labels, List.length_append, Nat.add_mul]
    exact Nat.add_le_add (iha (by omega)) (ihb (by omega))
  | branch l c a b iha ihb =>
    simp only [Program.loops, List.length_append] at hm
    have ha := iha (m := m) (by omega)
    have hb := ihb (m := m) (by omega)
    have hone := hpos m
    simp only [Program.span, Program.labels, List.length_cons, List.length_append, Nat.add_mul]
    omega
  | loop l c body ih =>
    obtain ⟨m, rfl⟩ := Nat.exists_eq_add_of_le' (Nat.le_of_add_left_le hm)
    have hbody := ih (m := m) (Nat.le_of_succ_le_succ hm)
    calc i * (1 + body.span i) + 1
        ≤ i * (1 + body.labels.length * (i + 1) ^ m) + 1 := by gcongr
      _ = i * (body.labels.length * (i + 1) ^ m) + (i + 1) := by ring
      _ ≤ (i + 1) * (body.labels.length * (i + 1) ^ m) + (i + 1) * (i + 1) ^ m :=
        Nat.add_le_add (Nat.mul_le_mul_right _ (Nat.le_succ i)) (Nat.le_mul_of_pos_right _ (hpos m))
      _ = (body.labels.length + 1) * (i + 1) ^ (m + 1) := by ring

/-! ## Counts -/

namespace FlowGraph.LoopCounts

variable {c : LoopCounts} {inner : List Node} {m : Node}

theorem lookup_filter_fst {α β : Type} [DecidableEq α] (f : α → Bool) (xs : List (α × β)) (x : α) :
    (xs.filter fun e => f e.1).lookup x = if f x then xs.lookup x else none := by
  induction xs with
  | nil => simp
  | cons e xs ih =>
    obtain ⟨a, b⟩ := e
    by_cases hx : x = a
    · subst hx
      by_cases hf : f x <;> simp [hf, ih]
    · by_cases hf : f a <;> simp [hf, ih, List.lookup_cons, beq_eq_false_iff_ne.2 hx]

/-- Arrival at a header counts it and clears the loops inside. -/
theorem of_arrive : (c.arrive i n inner).of m =
    if m = n ∧ c.of n < i then c.of n + 1 else if m ∈ inner then 0 else c.of m := by
  have hothers : ((c.filter fun e => e.1 ∉ inner).lookup m).getD 0 =
      if m ∈ inner then 0 else c.of m := by
    rw [lookup_filter_fst (fun a => decide (a ∉ inner))]
    by_cases hin : m ∈ inner <;> simp [hin, of]
  rw [of, arrive]
  by_cases hlt : c.of n < i
  · by_cases hm : m = n
    · simp [hlt, hm]
    · rw [if_pos hlt, if_neg (fun h => hm h.1), ← hothers, List.lookup_cons,
        beq_eq_false_iff_ne.2 hm]
      simp only
      rw [lookup_filter_fst (fun a => decide (a ≠ n)), if_pos (by simpa using hm)]
  · rw [if_neg hlt, if_neg (fun h => hlt h.2), hothers]

end FlowGraph.LoopCounts

/-! ## One step -/

open FlowGraph

variable {t t' s c : CountedTrail} {yes no : Node} {cond : Cond} {ls ls' : List Label}

theorem mem_loopChildren_straight {a : Action} (hn : t.trail.node = n)
    (ho : g.outgoing n = [⟨n, k, .const true, a, .next⟩]) (nesting : List (Node × List Node)) :
    c ∈ g.loopChildren nesting i t ↔ c = ⟨t.trail.extend k, t.entered⟩ := by
  have hsucc : g.successors n = [k] := by simp [successors, ho, List.eraseDups_cons]
  simp [loopChildren, loopWays, loopBody?, follow?, exploreOrder, FlowGraph.decision?, hn, hsucc, ho,
    Way.decision?]

theorem mem_loopChildren_choice (hn : t.trail.node = .point l)
    (ho : g.outgoing (.point l) = Program.fork l cond .thenArm .elseArm yes no)
    (nesting : List (Node × List Node)) : c ∈ g.loopChildren nesting i t ↔
      c = ⟨t.trail.extend yes, t.entered⟩ ∨ c = ⟨t.trail.extend no, t.entered⟩ := by
  have hbody : g.loopBody? (.point l) = none := by simp [loopBody?, follow?, ho, Program.fork]
  have horder : ∀ m, m ∈ g.exploreOrder (.point l) ↔ m = yes ∨ m = no := by
    intro m
    rw [exploreOrder]
    split
    · rw [List.mem_reverse, mem_successors_of_fork ho]
    · exact mem_successors_of_fork ho
  simp only [loopChildren, loopWays, hn, hbody, List.map_map, List.mem_map, horder]
  constructor
  · rintro ⟨m, rfl | rfl, rfl⟩
    · exact Or.inl rfl
    · exact Or.inr rfl
  · rintro (rfl | rfl)
    · exact ⟨yes, Or.inl rfl, rfl⟩
    · exact ⟨no, Or.inr rfl, rfl⟩

/-- What a loop header leads to, given the nodes of the loops inside. -/
theorem mem_loopChildren_loop (hn : t.trail.node = .point l)
    (ho : g.outgoing (.point l) = Program.fork l cond .body .leave yes no)
    (nesting : List (Node × List Node)) : c ∈ g.loopChildren nesting i t ↔
      (c.trail = t.trail.extend no ∨ t.count (.point l) < i ∧ c.trail = t.trail.extend yes) ∧
        c.entered = t.entered.arrive i (.point l) ((nesting.lookup (.point l)).getD []) := by
  obtain ⟨hyes, hno, -⟩ := follow_of_fork ho
  obtain ⟨trail, entered⟩ := c
  simp only [loopChildren, loopWays, hn, hyes, hno, CountedTrail.count]
  by_cases hlt : t.entered.of (.point l) < i
  · simp only [hlt, if_true, List.map_cons, List.map_nil, List.mem_cons, List.not_mem_nil, or_false,
      true_and, CountedTrail.mk.injEq]
    tauto
  · simp [hlt]

/-! ## Going through a program -/

/-- The program stands in the graph before `k`, and the graph lists its loops as they are nested. -/
structure Program.Stands (g : FlowGraph) (p : Program) (k : Node) : Prop where
  wired : p.WiredIn g k
  nodup : p.labels.Nodup
  nested : ∀ l c body, .loop l c body ∈ p.statements → ∀ m,
    m ∈ (g.nestedLoops.lookup (.point l)).getD [] ↔ ∃ l' ∈ body.loops, m = .point l'

namespace Program.Stands

variable {a b body : Program}

theorem ofProgram (hg : FlowGraph.ofProgram p = .ok g) : p.Stands g .exit where
  wired := wiredIn_of_ofProgram hg
  nodup := (ofProgram_eq_ok_iff.1 hg).1
  nested l c body hs := by
    simp [lookup_nestedLoops hg hs, mem_ascending, eq_comm]

theorem seq (h : (Program.seq a b).Stands g k) : a.Stands g (b.first k) ∧ b.Stands g k := by
  obtain ⟨ha, hb, -⟩ := List.nodup_append.1 h.nodup
  exact ⟨⟨h.wired.1, ha, fun l c body hs => h.nested l c body (List.mem_append_left _ hs)⟩,
    ⟨h.wired.2, hb, fun l c body hs => h.nested l c body (List.mem_append_right _ hs)⟩⟩

theorem branch (h : (Program.branch l cond a b).Stands g k) : a.Stands g k ∧ b.Stands g k := by
  obtain ⟨ha, hb, -⟩ := List.nodup_append.1 (List.nodup_cons.1 h.nodup).2
  have hsub := fun l' c body hs => h.nested l' c body (List.mem_cons_of_mem _ hs)
  exact ⟨⟨h.wired.2.1, ha, fun l c body hs => hsub l c body (List.mem_append_left _ hs)⟩,
    ⟨h.wired.2.2, hb, fun l c body hs => hsub l c body (List.mem_append_right _ hs)⟩⟩

theorem loop (h : (Program.loop l cond body).Stands g k) : body.Stands g (.point l) :=
  ⟨h.wired.2, (List.nodup_cons.1 h.nodup).2,
    fun l' c b hs => h.nested l' c b (List.mem_cons_of_mem _ hs)⟩

end Program.Stands

/-- The trail that has gone on through the labels `u` to `k`. -/
def Trail.along (t : Trail) (u : List Label) (k : Node) : Trail :=
  ⟨k, (u.map .point).reverse ++ t.earlier⟩

theorem Trail.along_along (t : Trail) (u v : List Label) (k k' : Node) :
    (t.along u k).along v k' = t.along (u ++ v) k' := by
  simp [Trail.along]

theorem Trail.extend_eq_along {t : Trail} (h : t.node = .point l) (k : Node) :
    t.extend k = t.along [l] k := by
  simp [Trail.extend, Trail.along, h]

/-- Going through the labels `u` leads from `t` to `t'` at the node `k`, and no counts are changed but
those of the loops `ls`. -/
structure Through (g : FlowGraph) (i : Nat) (ls : List Label) (k : Node) (t : CountedTrail)
    (u : List Label) (t' : CountedTrail) : Prop where
  leads : (g.loopPaths i).rule.Leads u.length t t'
  trail : t'.trail = t.trail.along u k
  kept : ∀ m ∉ ls, t'.count (.point m) = t.count (.point m)

namespace Through

theorem refl (h : t.trail.node = k) : Through g i ls k t [] t where
  leads := .refl t
  trail := by
    subst h
    rfl
  kept _ _ := rfl

theorem trans {k' : Node} (h : Through g i ls k t u t') (h' : Through g i ls k' t' v s) :
    Through g i ls k' t (u ++ v) s where
  leads := by
    rw [List.length_append]
    exact h.leads.trans h'.leads
  trail := by rw [h'.trail, h.trail, Trail.along_along]
  kept m hm := (h'.kept m hm).trans (h.kept m hm)

theorem mono (h : Through g i ls k t u t') (hsub : ∀ m ∈ ls, m ∈ ls') : Through g i ls' k t u t' :=
  ⟨h.leads, h.trail, fun m hm => h.kept m fun hm' => hm (hsub m hm')⟩

theorem node_eq (h : Through g i ls k t u t') : t'.trail.node = k := by
  rw [h.trail]
  rfl

theorem result?_eq_none (hn : t.trail.node = .point l) : (g.loopPaths i).rule.result? t = none :=
  Trail.complete?_eq_none.2 (by simp [hn])

theorem single (hn : t.trail.node = .point l) (hc : c ∈ g.loopChildren g.nestedLoops i t)
    (htrail : c.trail = t.trail.extend k)
    (hkept : ∀ m ∉ ls, c.count (.point m) = t.count (.point m)) : Through g i ls k t [l] c where
  leads := .single (result?_eq_none hn) hc
  trail := htrail.trans (Trail.extend_eq_along hn k)
  kept := hkept

end Through

/-- The loops of the program have not been counted yet. -/
def FlowGraph.CountedTrail.Fresh (p : Program) (t : CountedTrail) : Prop :=
  ∀ l ∈ p.loops, t.count (.point l) = 0

/-- Going through the first part of a sequence counts no loop of the second. -/
theorem Through.fresh_right {a b : Program} (hp : (Program.seq a b).Stands g k)
    (hfresh : t.Fresh (.seq a b)) (h : Through g i a.loops n t u t') : t'.Fresh b := by
  intro l hl
  have hdisj := (List.nodup_append.1 (nodup_loops hp.nodup)).2.2
  rw [h.kept l fun hl' => hdisj l hl' l hl rfl]
  exact hfresh l (List.mem_append_right _ hl)

section
variable {body : Program}

/-- Arriving at a loop from `t`, for whatever comes next. -/
structure Arrives (i : Nat) (l : Label) (body : Program) (t c : CountedTrail) : Prop where
  fresh : c.Fresh body
  count : c.count (.point l) = if t.count (.point l) < i then t.count (.point l) + 1 else
    t.count (.point l)
  kept : ∀ m ∉ l :: body.loops, c.count (.point m) = t.count (.point m)

theorem arrives_of_entered (hp : (Program.loop l cond body).Stands g k)
    (hc : c.entered = t.entered.arrive i (.point l) ((g.nestedLoops.lookup (.point l)).getD [])) :
    Arrives i l body t c := by
  have hinner := hp.nested l cond body List.mem_cons_self
  have hl : l ∉ body.loops := fun h => (List.nodup_cons.1 hp.nodup).1 (mem_labels_of_mem_loops h)
  have hcount : ∀ m, c.count (.point m) = if m = l ∧ t.count (.point l) < i then
      t.count (.point l) + 1 else if m ∈ body.loops then 0 else t.count (.point m) := by
    intro m
    have hmem : .point m ∈ (g.nestedLoops.lookup (.point l)).getD [] ↔ m ∈ body.loops := by
      simp [hinner]
    rw [CountedTrail.count, hc, LoopCounts.of_arrive]
    simp only [hmem, Node.point.injEq]
    rfl
  refine ⟨fun m hm => ?_, ?_, fun m hm => ?_⟩
  · have hne : m ≠ l := fun h => hl (h ▸ hm)
    simp [hcount, hne, hm]
  · simp [hcount, hl]
  · simp only [List.mem_cons, not_or] at hm
    simp [hcount, hm]

theorem through_header (hp : (Program.loop l cond body).Stands g k) (hn : t.trail.node = .point l)
    (hc : c ∈ g.loopChildren g.nestedLoops i t) (htrail : c.trail = t.trail.extend n) :
    Through g i (l :: body.loops) n t [l] c ∧ Arrives i l body t c := by
  have harrives := arrives_of_entered hp ((mem_loopChildren_loop hn hp.wired.1 _).1 hc).2
  exact ⟨.single hn hc htrail harrives.kept, harrives⟩

theorem exists_leave (hp : (Program.loop l cond body).Stands g k) (hn : t.trail.node = .point l) :
    ∃ c, Through g i (l :: body.loops) k t [l] c :=
  ⟨⟨t.trail.extend k, _⟩, (through_header hp hn
    ((mem_loopChildren_loop hn hp.wired.1 _).2 ⟨Or.inl rfl, rfl⟩) rfl).1⟩

theorem exists_enter (hp : (Program.loop l cond body).Stands g k) (hn : t.trail.node = .point l)
    (hlt : t.count (.point l) < i) :
    ∃ c, Through g i (l :: body.loops) (body.first (.point l)) t [l] c ∧ Arrives i l body t c :=
  ⟨⟨t.trail.extend (body.first (.point l)), _⟩, through_header hp hn
    ((mem_loopChildren_loop hn hp.wired.1 _).2 ⟨Or.inr ⟨hlt, rfl⟩, rfl⟩) rfl⟩

/-- A round of the body comes back to the header with its count as it was when the round began. -/
theorem Through.round {t₁ t₂ : CountedTrail} (hp : (Program.loop l cond body).Stands g k)
    (h : Through g i (l :: body.loops) (body.first (.point l)) t [l] t₁)
    (hround : Through g i body.loops (.point l) t₁ u t₂) :
    Through g i (l :: body.loops) (.point l) t (l :: u) t₂ ∧
      t₂.count (.point l) = t₁.count (.point l) := by
  have hl : l ∉ body.loops := fun h => (List.nodup_cons.1 hp.nodup).1 (mem_labels_of_mem_loops h)
  exact ⟨h.trans (hround.mono fun m => List.mem_cons_of_mem l), hround.kept l hl⟩

end

/-! ## Bounded traces can be followed -/

theorem exists_through_straight {a : Action} (hn : t.trail.node = .point l)
    (ho : g.outgoing (.point l) = Program.straight l a k) : ∃ t', Through g i ls k t [l] t' := by
  have hc := (mem_loopChildren_straight hn ho g.nestedLoops (i := i)).2 rfl
  exact ⟨_, .single hn hc rfl fun _ _ => rfl⟩

/-- A loop can be followed for as many rounds as it has left, if its body can. -/
theorem exists_through_rounds {body : Program} (hp : (Program.loop l cond body).Stands g k)
    (hbody : ∀ u c, body.IsTraceWithin i u → c.trail.node = body.first (.point l) → c.Fresh body →
      ∃ c', Through g i body.loops (.point l) c u c')
    {rounds : List (List Label)} (hrounds : ∀ u ∈ rounds, body.IsTraceWithin i u)
    (hn : t.trail.node = .point l) (hcount : t.count (.point l) + rounds.length ≤ i) :
    ∃ t', Through g i (l :: body.loops) k t (rounds.flatMap (l :: ·) ++ [l]) t' := by
  induction rounds generalizing t with
  | nil => exact exists_leave hp hn
  | cons u rounds ih =>
    obtain ⟨hu, hrounds⟩ := List.forall_mem_cons.1 hrounds
    rw [List.length_cons] at hcount
    obtain ⟨t₁, h₁, harr⟩ := exists_enter hp hn (i := i) (by omega)
    obtain ⟨t₂, h₂⟩ := hbody u t₁ hu h₁.node_eq harr.fresh
    obtain ⟨hround, hcount₂⟩ := h₁.round hp h₂
    rw [harr.count, if_pos (by omega)] at hcount₂
    obtain ⟨t₃, h₃⟩ := ih hrounds hround.node_eq (by omega)
    exact ⟨t₃, by simpa using hround.trans h₃⟩

/-- Every bounded trace of a program in front of which its loops stand at zero can be followed. -/
theorem exists_through (hp : p.Stands g k) (hu : p.IsTraceWithin i u)
    (hn : t.trail.node = p.first k) (hfresh : t.Fresh p) : ∃ t', Through g i p.loops k t u t' := by
  induction p generalizing k t u with
  | skip =>
    obtain rfl : u = [] := hu
    exact ⟨t, .refl hn⟩
  | assign l x e =>
    obtain rfl : u = [l] := hu
    exact exists_through_straight hn hp.wired
  | input l x =>
    obtain rfl : u = [l] := hu
    exact exists_through_straight hn hp.wired
  | print l e =>
    obtain rfl : u = [l] := hu
    exact exists_through_straight hn hp.wired
  | seq a b iha ihb =>
    obtain ⟨u, v, hu, hv, rfl⟩ := hu
    obtain ⟨ha, hb⟩ := hp.seq
    obtain ⟨t₁, h₁⟩ := iha ha hu hn fun l hl => hfresh l (List.mem_append_left _ hl)
    obtain ⟨t₂, h₂⟩ := ihb hb hv h₁.node_eq (h₁.fresh_right hp hfresh)
    exact ⟨t₂, (h₁.mono fun m => List.mem_append_left _).trans
      (h₂.mono fun m => List.mem_append_right _)⟩
  | branch l c a b iha ihb =>
    obtain ⟨ha, hb⟩ := hp.branch
    obtain ⟨u, hu | hu, rfl⟩ := hu
    · have hc := (mem_loopChildren_choice hn hp.wired.1 g.nestedLoops (i := i)).2 (Or.inl rfl)
      obtain ⟨t₁, h₁⟩ := iha (t := ⟨t.trail.extend (a.first k), t.entered⟩) ha hu rfl
        fun l hl => hfresh l (List.mem_append_left _ hl)
      exact ⟨t₁, (Through.single hn hc rfl fun _ _ => rfl).trans
        (h₁.mono fun m => List.mem_append_left _)⟩
    · have hc := (mem_loopChildren_choice hn hp.wired.1 g.nestedLoops (i := i)).2 (Or.inr rfl)
      obtain ⟨t₁, h₁⟩ := ihb (t := ⟨t.trail.extend (b.first k), t.entered⟩) hb hu rfl
        fun l hl => hfresh l (List.mem_append_right _ hl)
      exact ⟨t₁, (Through.single hn hc rfl fun _ _ => rfl).trans
        (h₁.mono fun m => List.mem_append_right _)⟩
  | loop l c body ih =>
    obtain ⟨rounds, hlen, hrounds, rfl⟩ := hu
    refine exists_through_rounds hp (fun u c hu hn hfresh => ih hp.loop hu hn hfresh) hrounds hn ?_
    rw [hfresh l List.mem_cons_self]
    simpa using hlen

/-! ## Chains follow bounded traces -/

/-- A chain of `d` states from `t` in front of `p` leads to `s`: either it has gone through the program
along a bounded trace, or it is still inside. -/
def InsideOrThrough (g : FlowGraph) (i : Nat) (p : Program) (k : Node) (t : CountedTrail) (d : Nat)
    (s : CountedTrail) : Prop :=
  (d < p.span i ∧ ∃ l ∈ p.labels, s.trail.node = .point l) ∨
    ∃ u t' m, p.IsTraceWithin i u ∧ Through g i p.loops k t u t' ∧ d = u.length + m ∧
      (g.loopPaths i).rule.Leads m t' s

namespace InsideOrThrough

theorem here (hl : p.label? = some l) (hn : t.trail.node = .point l) :
    InsideOrThrough g i p k t 0 t := by
  refine Or.inl ⟨?_, l, ?_, hn⟩
  · cases p with
    | skip => cases hl
    | seq a b => cases hl
    | assign l' x e => exact Nat.one_pos
    | input l' x => exact Nat.one_pos
    | print l' e => exact Nat.one_pos
    | branch l' c a b => exact Nat.add_pos_left Nat.one_pos _
    | loop l' c body => exact Nat.succ_pos _
  · obtain ⟨s, hs⟩ : ∃ s ∈ p.statements, s.label? = some l := by
      refine ⟨p, ?_, hl⟩
      cases p with
      | skip => cases hl
      | seq a b => cases hl
      | _ => exact List.mem_cons_self
    have hmem : some l ∈ p.statements.map (·.label?) := List.mem_map.2 ⟨s, hs⟩
    simpa [map_label?_statements] using hmem

/-- A step from the label of a statement to a part of it. -/
theorem cons {q : Program} (hstep : Through g i p.loops n t [l] c)
    (h : InsideOrThrough g i q k c d s) (hloops : ∀ m ∈ q.loops, m ∈ p.loops)
    (hlabels : ∀ m ∈ q.labels, m ∈ p.labels) (hspan : q.span i < p.span i)
    (htrace : ∀ u, q.IsTraceWithin i u → p.IsTraceWithin i (l :: u)) :
    InsideOrThrough g i p k t (d + 1) s := by
  rcases h with ⟨hd, l', hl', hs⟩ | ⟨u, t', m, hu, hthrough, rfl, hrest⟩
  · exact Or.inl ⟨Nat.lt_of_le_of_lt hd hspan, l', hlabels l' hl', hs⟩
  · refine Or.inr ⟨l :: u, t', m, htrace u hu, hstep.trans (hthrough.mono hloops), ?_, hrest⟩
    rw [List.length_cons, Nat.add_right_comm]

theorem skip (hn : t.trail.node = k) (hlead : (g.loopPaths i).rule.Leads d t s) :
    InsideOrThrough g i .skip k t d s :=
  Or.inr ⟨[], t, d, rfl, .refl hn, (Nat.zero_add d).symm, hlead⟩

/-- A statement that is left unconditionally. -/
theorem straight {a : Action} (hl : p.label? = some l) (hn : t.trail.node = .point l)
    (ho : g.outgoing (.point l) = Program.straight l a k) (hspan : 0 < p.span i)
    (htrace : p.IsTraceWithin i [l]) (hlead : (g.loopPaths i).rule.Leads d t s) :
    InsideOrThrough g i p k t d s := by
  cases hlead with
  | refl => exact here hl hn
  | step _ hc hrest =>
    obtain rfl := (mem_loopChildren_straight hn ho _).1 hc
    refine cons (.single hn hc rfl fun _ _ => rfl) (skip rfl hrest) (by simp [Program.loops])
      (by simp [Program.labels]) hspan ?_
    rintro _ rfl
    exact htrace

/-- A loop that has `f` rounds left. -/
theorem rounds {body : Program} (hp : (Program.loop l cond body).Stands g k)
    (hbody : ∀ c d, c.trail.node = body.first (.point l) → c.Fresh body →
      (g.loopPaths i).rule.Leads d c s → InsideOrThrough g i body (.point l) c d s)
    {f : Nat} (hn : t.trail.node = .point l) (hcount : t.count (.point l) + f = i)
    (hlead : (g.loopPaths i).rule.Leads d t s) :
    (d < f * (1 + body.span i) + 1 ∧ ∃ l' ∈ (Program.loop l cond body).labels,
      s.trail.node = .point l') ∨
    ∃ (rounds : List (List Label)) (t' : CountedTrail) (m : Nat), rounds.length ≤ f ∧
      (∀ u ∈ rounds, body.IsTraceWithin i u) ∧
      Through g i (l :: body.loops) k t (rounds.flatMap (l :: ·) ++ [l]) t' ∧
      d = (rounds.flatMap (l :: ·) ++ [l]).length + m ∧ (g.loopPaths i).rule.Leads m t' s := by
  induction f generalizing t d with
  | zero =>
    cases hlead with
    | refl => exact Or.inl ⟨by simp, l, List.mem_cons_self, hn⟩
    | step _ hc hrest =>
      rcases ((mem_loopChildren_loop hn hp.wired.1 _).1 hc).1 with htrail | ⟨hlt, -⟩
      · obtain ⟨hthrough, -⟩ := through_header hp hn hc htrail
        exact Or.inr ⟨[], _, _, Nat.le_refl 0, by simp, hthrough, Nat.add_comm _ 1, hrest⟩
      · omega
  | succ f ih =>
    cases hlead with
    | refl => exact Or.inl ⟨by simp, l, List.mem_cons_self, hn⟩
    | step _ hc hrest =>
      rcases ((mem_loopChildren_loop hn hp.wired.1 _).1 hc).1 with htrail | ⟨hlt, htrail⟩
      · obtain ⟨hthrough, -⟩ := through_header hp hn hc htrail
        exact Or.inr ⟨[], _, _, Nat.zero_le _, by simp, hthrough, Nat.add_comm _ 1, hrest⟩
      obtain ⟨h₁, harr⟩ := through_header hp hn hc htrail
      rcases hbody _ _ h₁.node_eq harr.fresh hrest with
        ⟨hd, l', hl', hs⟩ | ⟨u, t₂, m, hu, h₂, rfl, hrest₂⟩
      · refine Or.inl ⟨?_, l', List.mem_cons_of_mem _ hl', hs⟩
        rw [Nat.add_mul]
        omega
      have hlen := hu.length_le_span
      obtain ⟨hround, hcount₂⟩ := h₁.round hp h₂
      rw [harr.count, if_pos hlt] at hcount₂
      rcases ih hround.node_eq (by omega) hrest₂ with
        ⟨hm, hs⟩ | ⟨rounds, t₃, m, hlen, hrounds, h₃, rfl, hrest₃⟩
      · refine Or.inl ⟨?_, hs⟩
        rw [Nat.add_mul]
        omega
      · refine Or.inr ⟨u :: rounds, t₃, m, Nat.succ_le_succ hlen,
          List.forall_mem_cons.2 ⟨hu, hrounds⟩, by simpa using hround.trans h₃, ?_, hrest₃⟩
        simp only [List.flatMap_cons, List.length_append, List.length_cons]
        omega

end InsideOrThrough

theorem inside_or_through (hp : p.Stands g k) (hn : t.trail.node = p.first k) (hfresh : t.Fresh p)
    (hlead : (g.loopPaths i).rule.Leads d t s) : InsideOrThrough g i p k t d s := by
  induction p generalizing k t d with
  | skip => exact .skip hn hlead
  | assign l x e => exact .straight rfl hn hp.wired Nat.one_pos rfl hlead
  | input l x => exact .straight rfl hn hp.wired Nat.one_pos rfl hlead
  | print l e => exact .straight rfl hn hp.wired Nat.one_pos rfl hlead
  | seq a b iha ihb =>
    obtain ⟨ha, hb⟩ := hp.seq
    rcases iha ha hn (fun l hl => hfresh l (List.mem_append_left _ hl)) hlead with
      ⟨hd, l, hl, hs⟩ | ⟨u, t₁, m, hu, h₁, rfl, hrest⟩
    · exact Or.inl ⟨Nat.lt_add_right _ hd, l, List.mem_append_left _ hl, hs⟩
    rcases ihb hb h₁.node_eq (h₁.fresh_right hp hfresh) hrest with ⟨hm, l, hl, hs⟩ | ⟨v, t₂, m, hv, h₂, rfl, hrest₂⟩
    · exact Or.inl ⟨Nat.add_lt_add_of_le_of_lt hu.length_le_span hm, l, List.mem_append_right _ hl, hs⟩
    · refine Or.inr ⟨u ++ v, t₂, m, ⟨u, v, hu, hv, rfl⟩, ?_, by simp [Nat.add_assoc], hrest₂⟩
      exact (h₁.mono fun m => List.mem_append_left _).trans (h₂.mono fun m => List.mem_append_right _)
  | branch l c a b iha ihb =>
    obtain ⟨ha, hb⟩ := hp.branch
    cases hlead with
    | refl => exact .here rfl hn
    | step _ hc hrest =>
      rcases (mem_loopChildren_choice hn hp.wired.1 _).1 hc with rfl | rfl
      · have harm := iha (t := ⟨t.trail.extend (a.first k), t.entered⟩) ha rfl
          (fun l hl => hfresh l (List.mem_append_left _ hl)) hrest
        refine .cons (.single hn hc rfl fun _ _ => rfl) harm (fun m => List.mem_append_left _)
          (fun m hm => List.mem_cons_of_mem _ (List.mem_append_left _ hm)) ?_
          fun u hu => ⟨u, Or.inl hu, rfl⟩
        simp only [Program.span]
        omega
      · have harm := ihb (t := ⟨t.trail.extend (b.first k), t.entered⟩) hb rfl
          (fun l hl => hfresh l (List.mem_append_right _ hl)) hrest
        refine .cons (.single hn hc rfl fun _ _ => rfl) harm (fun m => List.mem_append_right _)
          (fun m hm => List.mem_cons_of_mem _ (List.mem_append_right _ hm)) ?_
          fun u hu => ⟨u, Or.inr hu, rfl⟩
        simp only [Program.span]
        omega
  | loop l c body ih =>
    have hcount : t.count (.point l) + i = i := by simp [hfresh l List.mem_cons_self]
    rcases InsideOrThrough.rounds hp (fun c d => ih hp.loop) hn hcount hlead with
      hinside | ⟨rounds, t', m, hlen, hrounds, hthrough, hd, hrest⟩
    · exact Or.inl hinside
    · exact Or.inr ⟨_, t', m, ⟨rounds, hlen, hrounds, rfl⟩, hthrough, hd, hrest⟩

/-! ## Built graphs -/

theorem body_ne_behind (hg : FlowGraph.ofProgram p = .ok g) {body behind : Node}
    (hbody : g.loopBody? n = some body) (hbehind : g.loopExit? n = some behind) : body ≠ behind := by
  rintro rfl
  obtain ⟨l, hl, rfl⟩ := exists_loop_of_loopBody? hg hbody
  obtain ⟨c, b, hs⟩ := mem_loops_iff.1 hl
  obtain ⟨k', ho⟩ := outgoing_of_loop (wiredIn_of_ofProgram hg) hs
  obtain ⟨hyes, hno, -⟩ := follow_of_fork ho
  obtain rfl := Option.some.inj (hbody.symm.trans hyes)
  obtain rfl := Option.some.inj (hbehind.symm.trans hno)
  -- Two edges side by side would make the loop a choice.
  have hedges : ∀ e ∈ Program.fork l c .body .leave (b.first (.point l)) (b.first (.point l)),
      e ∈ g.edges := fun e he => (mem_outgoing.1 (ho ▸ he)).1
  simp only [Program.fork, List.forall_mem_cons] at hedges
  obtain ⟨l', c', a', b', hs', hl', -⟩ :=
    branch_of_mem_edges hg hedges.1 hedges.2.1 (by simp) rfl rfl
  obtain rfl := Node.point.inj hl'
  cases statement_unique (ofProgram_eq_ok_iff.1 hg).1 hs hs' rfl

theorem growsTrails_loopPaths (hg : FlowGraph.ofProgram p = .ok g) (i : Nat) :
    (g.loopPaths i).rule.GrowsTrails CountedTrail.trail where
  result _ := rfl
  extend t c hc := by
    obtain ⟨q, -, rfl⟩ := List.mem_map.1 hc
    rfl
  apart t := by
    show ((g.loopChildren g.nestedLoops i t).map fun c => c.trail.node).Nodup
    rw [loopChildren, List.map_map]
    show ((g.loopWays g.nestedLoops i t.trail.node t.entered).map fun q => q.1).Nodup
    unfold loopWays
    split
    · have hne := body_ne_behind hg ‹_› ‹_›
      simp only
      split
      · simpa using hne
      · simp
    · rw [List.map_map]
      exact (nodup_exploreOrder g _).map fun _ _ => id

/-- A chain from the start is no longer than the program allows, and where it comes to the exit it has
followed a bounded trace. -/
theorem chain_from_start (hg : FlowGraph.ofProgram p = .ok g)
    (hlead : (g.loopPaths i).rule.Leads d ⟨.start, []⟩ s) : d ≤ p.span i + 1 ∧
      (s.trail.node = .exit → ∃ u, p.IsTraceWithin i u ∧
        s.trail.path = .entry :: (u.map .point ++ [.exit])) := by
  cases hlead with
  | refl => exact ⟨Nat.zero_le _, fun h => by cases h⟩
  | step _ hc hrest =>
    obtain rfl := (mem_loopChildren_straight rfl (outgoing_entry hg) _).1 hc
    rcases inside_or_through (Program.Stands.ofProgram hg) rfl (fun _ _ => rfl) hrest with
      ⟨hd, l, -, hs⟩ | ⟨u, t', m, hu, hthrough, rfl, hrest₂⟩
    · exact ⟨Nat.succ_le_succ hd.le, fun h => by simp [hs] at h⟩
    · have hfinished : (g.loopPaths i).rule.result? t' ≠ none := by
        rw [(growsTrails_loopPaths hg i).result, ne_eq, Trail.complete?_eq_none, hthrough.node_eq]
        simp
      obtain ⟨rfl, rfl⟩ := hrest₂.eq_of_finished hfinished
      refine ⟨Nat.succ_le_succ hu.length_le_span, fun _ => ⟨u, hu, ?_⟩⟩
      rw [hthrough.trail]
      simp [Trail.path, Trail.along, Trail.extend, Trail.start]

theorem exists_chain (hg : FlowGraph.ofProgram p = .ok g) (hu : p.IsTraceWithin i u) :
    ∃ s, (g.loopPaths i).rule.Leads (u.length + 1) ⟨.start, []⟩ s ∧
      s.trail.complete? = some (.entry :: (u.map .point ++ [.exit])) := by
  have hc := (mem_loopChildren_straight (t := ⟨.start, []⟩) (i := i) rfl (outgoing_entry hg)
    g.nestedLoops).2 rfl
  obtain ⟨s, hthrough⟩ := exists_through (t := ⟨Trail.start.extend (p.first .exit), []⟩)
    (Program.Stands.ofProgram hg) hu rfl fun _ _ => rfl
  refine ⟨s, .step rfl hc hthrough.leads, Trail.complete?_eq_some.2 ⟨hthrough.node_eq, ?_⟩⟩
  rw [hthrough.trail]
  simp [Trail.path, Trail.along, Trail.extend, Trail.start]

theorem span_lt_loopDepth (hg : FlowGraph.ofProgram p = .ok g) (i : Nat) :
    p.span i + 1 ≤ g.loopDepth i := by
  have hheaders : p.loops.length ≤ g.loopHeaders.length := by
    have hsub : p.loops.map .point ⊆ g.loopHeaders := by
      intro n hn
      obtain ⟨l, hl, rfl⟩ := List.mem_map.1 hn
      exact (mem_loopHeaders hg).2 ⟨l, hl, rfl⟩
    have hnodup := (nodup_loops (ofProgram_eq_ok_iff.1 hg).1).map fun _ _ => Node.point.inj
    simpa using (List.subperm_of_subset hnodup hsub).length_le
  have hspan := span_le (i := i) hheaders
  have hpos : 1 ≤ (i + 1) ^ g.loopHeaders.length := Nat.pow_pos (Nat.succ_pos i)
  rw [loopDepth, nodes_ofProgram hg]
  simp only [List.length_cons, List.length_append, List.length_map, List.length_nil, Nat.pow_eq,
    Nat.add_mul]
  omega

/-- No chain of states is longer than the depth that the enumeration is given. -/
theorem chain_le_loopDepth (hg : FlowGraph.ofProgram p = .ok g)
    (hlead : (g.loopPaths i).rule.Leads d ⟨.start, []⟩ s) : d ≤ g.loopDepth i :=
  (chain_from_start hg hlead).1.trans (span_lt_loopDepth hg i)

theorem toList_loopPaths (g : FlowGraph) (i : Nat) :
    (g.loopPaths i).toList = (g.loopPaths i).rule.results (g.loopDepth i) ⟨.start, []⟩ :=
  Enumeration.toList_single ..

theorem mem_loopPaths (hg : FlowGraph.ofProgram p = .ok g) {q : Path} :
    q ∈ (g.loopPaths i).toList ↔
      ∃ t, p.IsTraceWithin i t ∧ q = .entry :: (t.map .point ++ [.exit]) := by
  rw [toList_loopPaths, Growth.mem_results]
  constructor
  · rintro ⟨n, s, -, hlead, hs⟩
    obtain ⟨hexit, rfl⟩ := Trail.complete?_eq_some.1 hs
    exact (chain_from_start hg hlead).2 hexit
  · rintro ⟨t, ht, rfl⟩
    obtain ⟨s, hlead, hs⟩ := exists_chain hg ht
    exact ⟨_, s, chain_le_loopDepth hg hlead, hlead, hs⟩

/-! ## The walk -/

/-- The trail that belongs to a frame of the walk, with its counts. -/
def FlowGraph.CountedTrail.behind (path : List Node) (f : Node × LoopCounts) : CountedTrail :=
  ⟨.behind path f.1, f.2⟩

/-- The frames of the walk are the trails of the enumeration, with their counts. -/
theorem follows_loopWalk (g : FlowGraph) (i : Nat) : Backtracker.Follows (g.loopWalk i).visit
    (g.loopPaths i).rule CountedTrail.behind fun d path f =>
      ∀ n s, (g.loopPaths i).rule.Leads n (.behind path f) s → n ≤ d := by
  refine .ofChains ?_ ?_ ?_
  · rintro path ⟨n, counts⟩
    exact Visit.result?_arrive path n _
  · rintro path ⟨n, counts⟩ h
    exact Visit.behind_arrive_of_ne_none h _
  · rintro path ⟨n, counts⟩ hnone
    have hvisit : (g.loopWalk i).visit path.length path (n, counts) =
        .enter n none (g.loopWays g.nestedLoops i n counts) := Visit.arrive_of_none hnone _
    rw [hvisit]
    refine List.map_congr_left fun q _ => ?_
    show CountedTrail.mk ((Trail.behind path n).extend q.1) q.2 = _
    rw [Trail.extend_behind]
    rfl

theorem yields_loopWalk (hg : FlowGraph.ofProgram p = .ok g) (i : Nat) :
    (g.loopWalk i).Yields (g.loopPaths i).toList :=
  (follows_loopWalk g i).yields_toList fun _ _ => chain_le_loopDepth hg

/-! ## The enumeration -/

/-- The paths with loops bounded by `i` are yielded one after the other, each once, and then the
enumeration ends: they are the traces with loops bounded by `i`. The walk that keeps one path for all its
frames, and goes on as far as the counts allow, yields the same. All that is looked up about loop
headers is there, and the depth that the enumeration is given cuts nothing off: no chain of states is
longer, and a greater depth yields the same. -/
theorem loopPaths_exact (hp : p.labels.Nodup) : ∃ g, FlowGraph.ofProgram p = .ok g ∧
    g.HeadersListed ∧ ∀ i, ∃ paths, (g.loopPaths i).Yields paths ∧ (g.loopWalk i).Yields paths ∧
      paths.Nodup ∧
      (∀ q, q ∈ paths ↔ ∃ t, p.IsTraceWithin i t ∧ q = .entry :: (t.map .point ++ [.exit])) ∧
      (∀ n s, (g.loopPaths i).rule.Leads n ⟨.start, []⟩ s → n ≤ g.loopDepth i) ∧
      ∀ d, g.loopDepth i ≤ d →
        Enumeration.Yields ⟨(g.loopPaths i).rule, [(d, ⟨.start, []⟩)]⟩ paths := by
  have hg := ofProgram_of_nodup hp
  refine ⟨_, hg, headersListed_ofProgram hg, fun i => ⟨_, Enumeration.yields_toList _,
    yields_loopWalk hg i, ?_, fun q => mem_loopPaths hg, fun n s => chain_le_loopDepth hg, fun d hd => ?_⟩⟩
  · rw [toList_loopPaths]
    exact (growsTrails_loopPaths hg i).nodup_results _ _
  · have hdeep := Growth.results_eq_of_le (fun n s => chain_le_loopDepth hg (i := i)) hd
    rw [toList_loopPaths, ← hdeep, ← Enumeration.toList_single]
    exact Enumeration.yields_toList _

/-- Both runs of the inner loop go round twice, and with one round for each loop they may not. -/
theorem loopPaths_exact_coil : coil.labels.Nodup ∧ ∃ g two one, FlowGraph.ofProgram coil = .ok g ∧
    (g.loopPaths 2).Yields two ∧ (g.loopPaths 1).Yields one ∧
    .entry :: ([1, 2, 3, 2, 3, 2, 1, 2, 3, 2, 3, 2, 1, 4].map .point ++ [.exit]) ∈ two ∧
    .entry :: ([1, 2, 3, 2, 3, 2, 1, 4].map .point ++ [.exit]) ∉ one := by
  have hp : coil.labels.Nodup := by decide
  obtain ⟨g, hg, -, h⟩ := loopPaths_exact hp
  obtain ⟨two, htwo, -, -, hmem, -⟩ := h 2
  obtain ⟨one, hone, -, -, hmem', -⟩ := h 1
  refine ⟨hp, g, two, one, hg, htwo, hone, (hmem _).2 ⟨_, ?_, rfl⟩, fun hin => ?_⟩
  · have hinner : (Program.loop 2 (.var "b") (.branch 3 (.var "c") .skip (.seq .skip .skip))).IsTraceWithin
        2 [2, 3, 2, 3, 2] := ⟨[[3], [3]], by simp, by simp [Program.IsTraceWithin], rfl⟩
    refine ⟨[1, 2, 3, 2, 3, 2, 1, 2, 3, 2, 3, 2, 1], [4], ?_, rfl, rfl⟩
    exact ⟨[[2, 3, 2, 3, 2], [2, 3, 2, 3, 2]], by simp, by simpa using hinner, rfl⟩
  · obtain ⟨t, ht, heq⟩ := (hmem' _).1 hin
    have hlen := ht.length_le_span
    have hlen' := congrArg List.length heq
    simp [Program.span, coil] at hlen hlen'
    omega

end Pathwise
