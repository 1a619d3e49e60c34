import Pathwise.Backtracking
import Pathwise.Proofs.Enumeration

/-!
A walk that keeps one path yields what an enumeration yields whose states keep their own.

The depths on the stack of a walk do not increase downwards and none is beyond the path (`Coherent`). So
every frame still has its own path as a prefix of the shared one (`frames`), and a step only visits the
first frame and puts the frames behind it in its place (`Coherent.step`). Where the visits do what the rule
of an enumeration does (`Follows`), the walk yields the results of the enumeration (`Follows.yields_pending`).
-/

namespace Pathwise

variable {φ ν ρ σ : Type}

namespace Backtracker

variable {w w' : Backtracker φ ν ρ} {p : List ν} {f : φ} {rest : List (List ν × φ)} {xs : List ρ}

/-- The frames that wait, each with its own path. -/
def frames (w : Backtracker φ ν ρ) : List (List ν × φ) :=
  w.stack.map fun q => (w.path.take q.1, q.2)

/-- The depths on the stack do not increase downwards, and none is beyond the path. -/
structure Coherent (w : Backtracker φ ν ρ) : Prop where
  within : ∀ q ∈ w.stack, q.1 ≤ w.path.length
  sorted : w.stack.Pairwise fun q q' => q'.1 ≤ q.1

/-! ## One step -/

theorem step?_of_nil (h : w.frames = []) : w.step? = none := by
  rw [step?, List.map_eq_nil_iff.1 h]

/-- What a visit does to the path leaves its first nodes, up to the depth of the frame. -/
theorem take_path_take (v : Visit φ ν ρ) {path : List ν} {depth d : Nat} (hdepth : depth ≤ path.length)
    (hd : d ≤ depth) : (v.path (path.take depth)).take d = path.take d := by
  cases v with
  | pass x => rw [Visit.path, List.take_take, Nat.min_eq_left hd]
  | enter n x fs =>
    have hlen : d ≤ (path.take depth).length := by
      rw [List.length_take]
      omega
    rw [Visit.path, List.take_append_of_le_length hlen, List.take_take, Nat.min_eq_left hd]

theorem length_le_path (v : Visit φ ν ρ) (p : List ν) : p.length ≤ (v.path p).length := by
  cases v with
  | pass x => exact Nat.le_refl _
  | enter n x fs => simp [Visit.path]

/-- Frames are put behind a node that is put on the path. -/
theorem length_path_of_mem_behind {v : Visit φ ν ρ} (hf : f ∈ v.behind) (p : List ν) :
    (v.path p).length = p.length + 1 := by
  cases v with
  | pass x => cases hf
  | enter n x fs => simp [Visit.path]

/-- A step visits the first of the frames and puts those behind it in its place. -/
theorem Coherent.step (h : w.Coherent) (hframes : w.frames = (p, f) :: rest) :
    ∃ w', w.step? = some ((w.visit p.length p f).result?, w') ∧ w'.visit = w.visit ∧ w'.Coherent ∧
      w'.frames = (w.visit p.length p f).behind.map ((w.visit p.length p f).path p, ·) ++ rest := by
  obtain ⟨visit, stack, path⟩ := w
  obtain ⟨⟨depth, f⟩, stack, rfl, hp, rfl⟩ := List.map_eq_cons_iff.1 hframes
  cases hp
  have hdepth : depth ≤ path.length := h.within _ List.mem_cons_self
  have hlen : (path.take depth).length = depth := List.length_take_of_le hdepth
  obtain ⟨hbelow, hsorted⟩ := List.pairwise_cons.1 h.sorted
  simp only [hlen]
  generalize hv : visit depth (path.take depth) f = v
  refine ⟨⟨visit, v.behind.map (depth + 1, ·) ++ stack, v.path (path.take depth)⟩, ?_, rfl, ⟨?_, ?_⟩, ?_⟩
  · simp only [step?, hv]
  · intro q hq
    rcases List.mem_append.1 hq with hq | hq
    · obtain ⟨c, hc, rfl⟩ := List.mem_map.1 hq
      exact Nat.le_of_eq (by rw [length_path_of_mem_behind hc, hlen])
    · have hle := length_le_path v (path.take depth)
      have hq := hbelow q hq
      simp only [hlen] at hle ⊢
      omega
  · refine List.pairwise_append.2 ⟨?_, hsorted, ?_⟩
    · exact List.pairwise_map.2 (List.pairwise_of_forall fun _ _ => Nat.le_refl _)
    · intro q hq q' hq'
      obtain ⟨c, -, rfl⟩ := List.mem_map.1 hq
      exact Nat.le_succ_of_le (hbelow q' hq')
  · simp only [frames, List.map_append, List.map_map]
    congr 1
    · refine List.map_congr_left fun c hc => ?_
      have hpath := length_path_of_mem_behind hc (path.take depth)
      rw [hlen] at hpath
      simp only [Function.comp_apply, List.take_of_length_le (Nat.le_of_eq hpath)]
    · refine List.map_congr_left fun q hq => ?_
      rw [take_path_take v hdepth (hbelow q hq)]

/-! ## Whole runs -/

/-- A step without a result changes nothing about what is yielded. -/
theorem Yields.silent (hstep : w.step? = some (none, w')) (h : w'.Yields xs) : w.Yields xs := by
  cases h with
  | done hnext => exact .done (.silent hstep hnext)
  | more hnext hrest => exact .more (.silent hstep hnext) hrest

/-- The visits do what the rule does with the states that belong to frames. How far the rule may go below
a state depends on the frame: with no depth left, nothing is behind it. -/
structure Follows (visit : Nat → List ν → φ → Visit φ ν ρ) (r : Growth σ ρ) (state : List ν → φ → σ)
    (room : Nat → List ν → φ → Prop) : Prop where
  result : ∀ d p f, room d p f → (visit p.length p f).result? = r.result? (state p f)
  finish : ∀ d p f, room d p f → r.result? (state p f) ≠ none → (visit p.length p f).behind = []
  stop : ∀ p f, room 0 p f → (visit p.length p f).behind = []
  children : ∀ d p f, room (d + 1) p f → r.result? (state p f) = none → r.children (state p f) =
    (visit p.length p f).behind.map (state ((visit p.length p f).path p))
  room : ∀ d p f, room (d + 1) p f → ∀ c ∈ (visit p.length p f).behind,
    room d ((visit p.length p f).path p) c

namespace Follows

variable {visit : Nat → List ν → φ → Visit φ ν ρ} {r : Growth σ ρ} {state : List ν → φ → σ}
  {room : Nat → List ν → φ → Prop}

/-- The states of the frames, each with the depth below it. -/
def waiting (state : List ν → φ → σ) (fs : List (Nat × List ν × φ)) : List (Nat × σ) :=
  fs.map fun q => (q.1, state q.2.1 q.2.2)

/-- From a coherent stack on, the walk yields the results below the states of its frames. -/
theorem yields_pending (hfollows : Follows visit r state room) {w : Backtracker φ ν ρ}
    (hvisit : w.visit = visit) (h : w.Coherent) {fs : List (Nat × List ν × φ)}
    (hframes : w.frames = fs.map (·.2)) (hroom : ∀ q ∈ fs, room q.1 q.2.1 q.2.2) :
    w.Yields (r.pending (waiting state fs)) := by
  -- the induction is on the number of states that the enumeration still has to visit
  induction hsize : r.total (waiting state fs) using Nat.strongRecOn generalizing w fs with
  | _ size ih =>
    subst hvisit hsize
    cases fs with
    | nil => exact .done (.finished (step?_of_nil hframes))
    | cons q fs =>
      obtain ⟨d, p, f⟩ := q
      obtain ⟨hfirst, hrest⟩ := List.forall_mem_cons.1 hroom
      obtain ⟨w', hstep, hvisit, hcoherent, hbehind⟩ := h.step hframes
      rw [hfollows.result d p f hfirst] at hstep
      cases hs : r.result? (state p f) with
      | some x =>
        rw [hfollows.finish d p f hfirst (by simp [hs])] at hbehind
        rw [hs] at hstep
        have hyields := ih _ (r.total_lt_cons _ _) hvisit hcoherent hbehind hrest rfl
        rw [waiting, List.map_cons, Growth.pending_of_some hs]
        exact .more (.found hstep) hyields
      | none =>
        rw [hs] at hstep
        cases d with
        | zero =>
          rw [hfollows.stop p f hfirst] at hbehind
          have hyields := ih _ (r.total_lt_cons _ _) hvisit hcoherent hbehind hrest rfl
          rw [waiting, List.map_cons, Growth.pending_zero hs]
          exact .silent hstep hyields
        | succ d =>
          -- the states of the frames behind the first are the children of its state
          let behind := (w.visit p.length p f).behind.map fun c => (d, (w.visit p.length p f).path p, c)
          have hwaiting : waiting state (behind ++ fs) = r.expand d (state p f) (waiting state fs) := by
            simp [behind, waiting, Growth.expand, hfollows.children d p f hfirst hs, Function.comp_def]
          have hframes' : w'.frames = (behind ++ fs).map (·.2) := by
            rw [hbehind]
            simp [behind, Function.comp_def]
          have hroom' : ∀ q ∈ behind ++ fs, room q.1 q.2.1 q.2.2 := by
            intro q hq
            rcases List.mem_append.1 hq with hq | hq
            · obtain ⟨c, hc, rfl⟩ := List.mem_map.1 hq
              exact hfollows.room d p f hfirst c hc
            · exact hrest q hq
          have hless : r.total (waiting state (behind ++ fs)) <
              r.total (waiting state ((d + 1, p, f) :: fs)) := by
            rw [hwaiting]
            exact r.total_expand_lt d (state p f) (waiting state fs)
          have hyields := ih _ hless hvisit hcoherent hframes' hroom' rfl
          rw [waiting, List.map_cons, Growth.pending_succ hs, ← waiting, ← hwaiting]
          exact .silent hstep hyields

/-- From frames behind the end of one path, the walk yields the results below their states. -/
theorem yields_results (hfollows : Follows visit r state room) {d : Nat} {p : List ν} {fs : List φ}
    (hroom : ∀ f ∈ fs, room d p f) : Yields ⟨visit, fs.map (p.length, ·), p⟩
      (fs.flatMap fun f => r.results d (state p f)) := by
  have hcoherent : Coherent ⟨visit, fs.map (p.length, ·), p⟩ := by
    refine ⟨fun q hq => ?_, List.pairwise_map.2 (List.pairwise_of_forall fun _ _ => Nat.le_refl _)⟩
    obtain ⟨f, -, rfl⟩ := List.mem_map.1 hq
    exact Nat.le_refl _
  have hframes : frames ⟨visit, fs.map (p.length, ·), p⟩ = (fs.map fun f => (d, p, f)).map (·.2) := by
    simp [frames, Function.comp_def]
  have hyields := hfollows.yields_pending rfl hcoherent hframes (by simpa using hroom)
  simpa [waiting, Growth.pending, Function.comp_def, List.flatMap_map] using hyields

/-- From a frame with nothing on the path, the walk yields what the enumeration lists. -/
theorem yields_toList (hfollows : Follows visit r state room) {d : Nat} {f : φ} (hroom : room d [] f) :
    Yields ⟨visit, [(0, f)], []⟩ (Enumeration.toList ⟨r, [(d, state [] f)]⟩) := by
  have hyields := hfollows.yields_results (List.forall_mem_singleton.2 hroom)
  rwa [List.flatMap_singleton, ← Enumeration.toList_single] at hyields

/-- Visits that go as far as the rule does. Where no chain of states is longer than the depth below the
first, the walk comes to an end by itself. -/
theorem ofChains (hresult : ∀ p f, (visit p.length p f).result? = r.result? (state p f))
    (hfinish : ∀ p f, r.result? (state p f) ≠ none → (visit p.length p f).behind = [])
    (hchildren : ∀ p f, r.result? (state p f) = none → r.children (state p f) =
      (visit p.length p f).behind.map (state ((visit p.length p f).path p))) :
    Follows visit r state fun d p f => ∀ n s, r.Leads n (state p f) s → n ≤ d := by
  have hbehind : ∀ p f, ∀ c ∈ (visit p.length p f).behind,
      r.Leads 1 (state p f) (state ((visit p.length p f).path p) c) := by
    intro p f c hc
    cases hs : r.result? (state p f) with
    | some x =>
      rw [hfinish p f (by simp [hs])] at hc
      cases hc
    | none =>
      refine .single hs ?_
      rw [hchildren p f hs]
      exact List.mem_map_of_mem hc
  refine ⟨fun _ p f _ => hresult p f, fun _ p f _ => hfinish p f, ?_, fun _ p f _ => hchildren p f, ?_⟩
  · intro p f hchains
    refine List.eq_nil_iff_forall_not_mem.2 fun c hc => ?_
    exact absurd (hchains 1 _ (hbehind p f c hc)) (by simp)
  · intro d p f hchains c hc n s hlead
    have hle := hchains (1 + n) s ((hbehind p f c hc).trans hlead)
    omega

end Follows

end Backtracker

/-! ## Frames that are nodes -/

namespace Trail

/-- The trail that belongs to a frame: the path to it and its node. -/
def behind (p : List Node) (n : Node) : Trail := ⟨n, p.reverse⟩

theorem extend_behind (p : List Node) (n m : Node) : (behind p n).extend m = behind (p ++ [n]) m := by
  simp [behind, extend]

theorem path_behind (p : List Node) (n : Node) : (behind p n).path = p ++ [n] := by
  simp [behind, path]

end Trail

namespace Visit

variable {path : Path} {n : Node}

theorem result?_arrive (path : Path) (n : Node) (fs : List φ) :
    (arrive path n fs).result? = (Trail.behind path n).complete? := by
  rw [arrive, Trail.complete?, Trail.path_behind]
  show _ = if n = .exit then some (path ++ [n]) else none
  split <;> rfl

theorem arrive_of_none (h : (Trail.behind path n).complete? = none) (fs : List φ) :
    arrive path n fs = .enter n none fs :=
  if_neg (Trail.complete?_eq_none.1 h)

theorem behind_arrive (path : Path) (n : Node) (fs : List φ) :
    (arrive path n fs).behind = if n = .exit then [] else fs := by
  rw [arrive]
  split <;> rfl

theorem path_arrive (path p : Path) (n : Node) (fs : List φ) :
    (arrive path n fs).path p = p ++ [n] := by
  rw [arrive]
  split <;> rfl

theorem behind_arrive_of_ne_none (h : (Trail.behind path n).complete? ≠ none) (fs : List φ) :
    (arrive path n fs).behind = [] := by
  have hn : n = .exit := by
    by_contra hn
    exact h (Trail.complete?_eq_none.2 hn)
  rw [behind_arrive, if_pos hn]

end Visit

end Pathwise
