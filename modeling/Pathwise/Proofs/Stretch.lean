import Mathlib.Data.List.Count
import Pathwise.Proofs.LoopPaths

/-!
A stretch of an unbounded trace is a stretch of a bounded one.

What a trace does before and after the stretch `w` can be cut down: the loops that `w` does not touch
are left at once, and a loop that `w` crosses needs the rounds that `w` enters and at most one more, the
one in which `w` begins. So `i` rounds are enough as soon as `w` passes every label fewer than `i` times
between its ends. The argument follows the text of the program, one lemma for each way to compose lists
(`Cuts.append`, `Cuts.or`, `Cuts.rounds`), and on the graph it says which paths are part of a path with
bounded loops (`exists_loopPath_of_isPathFrom`).
-/

namespace Pathwise

variable {α β : Type} {x y : List α} {i : Nat}

/-- A stretch of `s ++ t` lies in `s`, lies in `t`, or begins in `s` and ends in `t`. -/
theorem stretch_cases {u v w s t : List α} (h : u ++ (w ++ v) = s ++ t) :
    (∃ y, s = u ++ (w ++ y) ∧ v = y ++ t) ∨ (∃ x, u = s ++ x ∧ t = x ++ (w ++ v)) ∨
      ∃ x y, w = x ++ y ∧ x ≠ [] ∧ y ≠ [] ∧ s = u ++ x ∧ t = y ++ v := by
  obtain ⟨x, hs, hx⟩ | ⟨x, hu, ht⟩ := List.append_eq_append_iff.1 h
  · obtain ⟨y, rfl, hv⟩ | ⟨y, hw, ht⟩ := List.append_eq_append_iff.1 hx
    · exact .inl ⟨y, hs, hv⟩
    · by_cases hx : x = []
      · subst hx
        exact .inr (.inl ⟨[], by simpa using hs.symm, by simpa [hw] using ht⟩)
      · by_cases hy : y = []
        · subst hy
          exact .inl ⟨[], by simp [hs, hw], by simpa using ht.symm⟩
        · exact .inr (.inr ⟨x, y, hw, hx, hy, hs, ht⟩)
  · exact .inr (.inl ⟨x, hu, ht⟩)

theorem dropLast_sublist_dropLast (h : x.Sublist y) : x.dropLast.Sublist y.dropLast := by
  have hr := h.reverse.tail
  rw [List.tail_reverse, List.tail_reverse] at hr
  exact List.reverse_sublist.1 hr

/-! ## What a stretch passes -/

variable [DecidableEq α] [DecidableEq β]

/-- Between its ends `w` meets everything fewer than `i` times. -/
def PassesBelow (i : Nat) (w : List α) : Prop :=
  ∀ a, w.tail.dropLast.count a < i

theorem PassesBelow.sublist (hy : PassesBelow i y) (h : x.Sublist y) : PassesBelow i x :=
  fun a => ((dropLast_sublist_dropLast h.tail).count_le a).trans_lt (hy a)

theorem PassesBelow.nil (h : PassesBelow i x) : PassesBelow i ([] : List α) :=
  h.sublist x.nil_sublist

theorem PassesBelow.left (h : PassesBelow i (x ++ y)) : PassesBelow i x :=
  h.sublist (List.sublist_append_left x y)

theorem PassesBelow.right (h : PassesBelow i (x ++ y)) : PassesBelow i y :=
  h.sublist (List.sublist_append_right x y)

theorem passesBelow_of_nodup (hi : 2 ≤ i) (h : x.tail.dropLast.Nodup) : PassesBelow i x :=
  fun a => (List.nodup_iff_count_le_one.1 h a).trans_lt hi

theorem PassesBelow.of_map {f : α → β} (hf : f.Injective) (h : PassesBelow i (x.map f)) :
    PassesBelow i x := by
  intro a
  have ha := h (f a)
  rwa [← List.map_tail, ← List.map_dropLast, List.count_map_of_injective _ f hf] at ha

/-! ## Cutting lists down to a stretch -/

/-- A stretch of a list of `L` stands in a list of `M`, at the front or at the end if it was there, unless
it passes something `i` times. -/
def Cuts (i : Nat) (L M : List α → Prop) : Prop :=
  ∀ ⦃u w v⦄, L (u ++ (w ++ v)) → PassesBelow i w →
    ∃ u' v', M (u' ++ (w ++ v')) ∧ (u = [] → u' = []) ∧ (v = [] → v' = [])

namespace Cuts

variable {L M L₁ M₁ L₂ M₂ : List α → Prop}

theorem refl (L : List α → Prop) : Cuts i L L := fun u _ v h _ => ⟨u, v, h, id, id⟩

theorem or (h₁ : Cuts i L₁ M₁) (h₂ : Cuts i L₂ M₂) :
    Cuts i (fun t => L₁ t ∨ L₂ t) fun t => M₁ t ∨ M₂ t := by
  rintro u w v (h | h) hw
  · obtain ⟨u', v', h', hends⟩ := h₁ h hw
    exact ⟨u', v', .inl h', hends⟩
  · obtain ⟨u', v', h', hends⟩ := h₂ h hw
    exact ⟨u', v', .inr h', hends⟩

/-- Where the stretch lies in one part, the empty stretch of the other part cuts that part down. -/
theorem append (h₁ : Cuts i L₁ M₁) (h₂ : Cuts i L₂ M₂) :
    Cuts i (fun t => ∃ a b, L₁ a ∧ L₂ b ∧ t = a ++ b) fun t => ∃ a b, M₁ a ∧ M₂ b ∧ t = a ++ b := by
  rintro u w v ⟨a, b, ha, hb, h⟩ hw
  obtain ⟨y, rfl, rfl⟩ | ⟨x, rfl, rfl⟩ | ⟨x, y, rfl, -, -, rfl, rfl⟩ := stretch_cases h
  · obtain ⟨u', y', ha', hu, hy⟩ := h₁ ha hw
    obtain ⟨z, v', hb', hz, hv⟩ := h₂ (u := []) (w := []) hb hw.nil
    obtain rfl := hz rfl
    refine ⟨u', y' ++ v', ⟨_, _, ha', hb', by simp⟩, hu, fun h => ?_⟩
    obtain ⟨hy₀, hb₀⟩ := List.append_eq_nil_iff.1 h
    rw [hy hy₀, hv hb₀, List.append_nil]
  · obtain ⟨u', z, ha', hu, hz⟩ := h₁ (w := []) (v := []) (by simpa using ha) hw.nil
    obtain ⟨x', v', hb', hx, hv⟩ := h₂ hb hw
    obtain rfl := hz rfl
    refine ⟨u' ++ x', v', ⟨_, _, ha', hb', by simp⟩, fun h => ?_, hv⟩
    obtain ⟨ha₀, hx₀⟩ := List.append_eq_nil_iff.1 h
    rw [hu ha₀, hx hx₀, List.append_nil]
  · obtain ⟨u', z, ha', hu, hz⟩ := h₁ (v := []) (by simpa using ha) hw.left
    obtain ⟨z', v', hb', hz', hv⟩ := h₂ (u := []) hb hw.right
    obtain rfl := hz rfl
    obtain rfl := hz' rfl
    exact ⟨u', v', ⟨_, _, ha', hb', by simp⟩, hu, hv⟩

theorem cons (h : Cuts i L M) (a : α) :
    Cuts i (fun t => ∃ s, L s ∧ t = a :: s) fun t => ∃ s, M s ∧ t = a :: s := by
  simpa [Cuts] using (refl (· = [a])).append h

theorem map {f : α → β} (hf : f.Injective) (h : Cuts i L M) :
    Cuts i (fun t => ∃ s, L s ∧ t = s.map f) fun t => ∃ s, M s ∧ t = s.map f := by
  rintro u w v ⟨s, hs, heq⟩ hw
  obtain ⟨u, t, rfl, rfl, ht⟩ := List.append_eq_map_iff.1 heq
  obtain ⟨w, v, rfl, rfl, rfl⟩ := List.append_eq_map_iff.1 ht.symm
  obtain ⟨u', v', hs', hu, hv⟩ := h hs (hw.of_map hf)
  exact ⟨u'.map f, v'.map f, ⟨_, hs', by simp⟩, by simpa using hu, by simpa using hv⟩

/-- Some rounds of the loop `l` hold the stretch `w`. A round in which the stretch begins is needed
without being entered by it, so there may be one more than the stretch passes the label. -/
def InRounds (M : List α → Prop) (l : α) (w : List α) (front back : Prop) : Prop :=
  ∃ (rounds : List (List α)) (u v : List α), (∀ r ∈ rounds, M r) ∧
    u ++ (w ++ v) = rounds.flatMap (l :: ·) ++ [l] ∧ rounds.length ≤ w.tail.dropLast.count l + 1 ∧
    (front → u = [] ∧ rounds.length ≤ w.dropLast.count l) ∧ (back → v = [])

variable {l : α} {r u w v : List α}

/-- The stretch ends before the next round: that one round is enough. -/
theorem inRounds_of_round (h : Cuts i L M) (hr : L r) (hs : l :: r = u ++ (w ++ v))
    (hw : PassesBelow i w) : InRounds M l w (u = []) False := by
  by_cases hone : u = [] → 1 ≤ w.dropLast.count l
  · obtain ⟨u', v', ⟨r', hr', heq⟩, hu, -⟩ := h.cons l ⟨r, hr, hs.symm⟩ hw
    exact ⟨[r'], u', v' ++ [l], by simpa using hr', by simp [← heq], by simp,
      fun h => ⟨hu h, hone h⟩, False.elim⟩
  · -- at the front of the loop, a stretch of at most one label needs no round
    obtain ⟨rfl, hnone⟩ := Classical.not_imp.1 hone
    match w, hs, hnone with
    | [], _, _ => exact ⟨[], [], [l], by simp, rfl, by simp, by simp, False.elim⟩
    | [b], hs, _ =>
      obtain rfl : l = b := (List.cons.inj hs).1
      exact ⟨[], [], [], by simp, rfl, by simp, by simp, False.elim⟩
    | b :: c :: w, hs, hnone =>
      obtain rfl : l = b := (List.cons.inj hs).1
      simp at hnone

/-- The stretch goes on into the next round with `y`. -/
theorem inRounds_append {back : Prop} (h : Cuts i L M) (hr : L r) (hs : l :: r = u ++ x) (hx : x ≠ [])
    (hy : y ≠ []) (hpass : PassesBelow i x) (hrest : InRounds M l y True back) :
    InRounds M l (x ++ y) (u = []) back := by
  obtain ⟨rounds, z, v, hM, heq, -, hfront, hv⟩ := hrest
  obtain ⟨rfl, hlen⟩ := hfront trivial
  obtain ⟨u', z, ⟨r', hr', heq'⟩, hu, hz⟩ := h.cons l (v := []) ⟨r, hr, by simpa using hs.symm⟩ hpass
  obtain rfl := hz rfl
  refine ⟨r' :: rounds, u', v, by simpa using ⟨hr', hM⟩, ?_, ?_, ?_, hv⟩
  · calc u' ++ (x ++ y ++ v)
        = (u' ++ (x ++ [])) ++ ([] ++ (y ++ v)) := by simp
      _ = (l :: r') ++ (rounds.flatMap (l :: ·) ++ [l]) := by rw [heq', heq]
      _ = (r' :: rounds).flatMap (l :: ·) ++ [l] := by simp
  · rw [List.tail_append_of_ne_nil hx, List.dropLast_append_of_ne_nil hy, List.count_append,
      List.length_cons]
    omega
  · rintro rfl
    have hone : 0 < x.count l := by simp [← List.nil_append x ▸ hs]
    rw [List.dropLast_append_of_ne_nil hy, List.count_append, List.length_cons]
    exact ⟨hu rfl, by omega⟩

theorem inRounds (h : Cuts i L M) {rounds : List (List α)} (hrounds : ∀ r ∈ rounds, L r)
    (heq : u ++ (w ++ v) = rounds.flatMap (l :: ·) ++ [l]) (hw : PassesBelow i w) :
    InRounds M l w (u = []) (v = []) := by
  induction rounds generalizing u w with
  | nil => exact ⟨[], u, v, by simp, heq, by simp, by simp, id⟩
  | cons r rounds ih =>
    obtain ⟨hr, hrest⟩ := List.forall_mem_cons.1 hrounds
    rw [List.flatMap_cons, List.append_assoc] at heq
    obtain ⟨y, hs, hv⟩ | ⟨x, hu, ht⟩ | ⟨x, y, rfl, hx, hy, hs, ht⟩ := stretch_cases heq
    · have hback : v ≠ [] := by simp [hv]
      simpa [hback] using h.inRounds_of_round hr hs hw
    · obtain ⟨rounds', u', v', hM, heq', hlen, -, hv⟩ := ih hrest ht.symm hw
      exact ⟨rounds', u', v', hM, heq', hlen, by simp [hu], hv⟩
    · have hnext := ih (u := []) hrest ht.symm hw.right
      exact h.inRounds_append hr hs hx hy hw.left (by simpa using hnext)

theorem rounds (h : Cuts i L M) (l : α) :
    Cuts i (fun t => ∃ rounds : List (List α), (∀ r ∈ rounds, L r) ∧ t = rounds.flatMap (l :: ·) ++ [l])
      fun t => ∃ rounds : List (List α), rounds.length ≤ i ∧ (∀ r ∈ rounds, M r) ∧
        t = rounds.flatMap (l :: ·) ++ [l] := by
  rintro u w v ⟨rounds, hrounds, heq⟩ hw
  obtain ⟨rounds', u', v', hM, heq', hlen, hu, hv⟩ := h.inRounds hrounds heq hw
  have hl := hw l
  exact ⟨u', v', ⟨rounds', by omega, hM, heq'⟩, fun h => (hu h).1, hv⟩

end Cuts

variable {g : FlowGraph} {p : Program}

theorem cuts_isTrace (i : Nat) (p : Program) : Cuts i p.IsTrace (p.IsTraceWithin i) := by
  induction p with
  | skip => exact .refl _
  | assign l x e => exact .refl _
  | input l x => exact .refl _
  | print l e => exact .refl _
  | seq a b iha ihb => exact iha.append ihb
  | branch l c a b iha ihb => exact (iha.or ihb).cons l
  | loop l c body ih => exact ih.rounds l

/-! ## Parts of bounded paths -/

open FlowGraph

/-- A path of the graph that passes every node fewer than `i` times between its ends is part of a path
with loops bounded by `i`. -/
theorem exists_loopPath_of_isPathFrom (hg : FlowGraph.ofProgram p = .ok g) {a b : Node} {w : Path}
    (ha : a ∈ g.nodes) (hw : g.IsPathFrom a b w) (hpass : PassesBelow i w) :
    ∃ q ∈ (g.loopPaths i).toList, w <:+: q := by
  obtain ⟨s, z, hpath⟩ := exists_path_around hg ha hw
  obtain ⟨τ, hτ, heq⟩ := (isPathFrom_entry_exit_iff hg).1 hpath
  -- the path is a trace between the entry and the exit, so it is cut down as a composed list
  have hcut := (((cuts_isTrace i p).map (f := Node.point) fun _ _ => Node.point.inj).append
    (.refl (· = [Node.exit]))).cons .entry
  obtain ⟨u', v', ⟨q, ⟨_, _, ⟨τ', hτ', rfl⟩, rfl, rfl⟩, hq⟩, -, -⟩ :=
    hcut (u := s) (w := w) (v := z) ⟨_, ⟨_, _, ⟨τ, hτ, rfl⟩, rfl, rfl⟩, heq⟩ hpass
  exact ⟨_, (mem_loopPaths hg).2 ⟨τ', hτ', hq⟩, u', v', by simp⟩

end Pathwise
