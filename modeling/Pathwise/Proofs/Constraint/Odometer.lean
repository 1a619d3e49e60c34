import Mathlib.Algebra.Ring.Nat
import Mathlib.Data.List.Forall2
import Mathlib.Logic.ExistsUnique
import Pathwise.Proofs.Constraint.Decision

/-!
A search runs through the combinations of its choices like an odometer.

A combination is a position in each of the lists of choices. Written as digits, each place with its own
base and the first place changing fastest, the positions number the combinations from zero on
(`digits`), and the next number is the next reading of an odometer (`advance_digits`). The search tries
the combinations in this order (`search_eq_tryFrom`), so an odometer that is read and moved on until its
attempts are used up or a poll stops it comes to the same result (`search_eq_odometer`). What a search
comes to is told by the first combination that it does not go past (`tryFrom_cases`).
-/

namespace Pathwise

/-! ## Positions and their numbers -/

/-- The positions of the `n`-th combination of lists of the given sizes. -/
def digits : List Nat → Nat → List Nat
  | [], _ => []
  | size :: sizes, n => n % size :: digits sizes (n / size)

/-- The positions after the given ones: the first that is not the last of its list moves on, and those
before it start again. -/
def advance : List Nat → List Nat → Option (List Nat)
  | size :: sizes, d :: ds =>
    if d + 1 < size then some ((d + 1) :: ds) else (advance sizes ds).map (0 :: ·)
  | _, _ => none

section
variable {sizes ds : List Nat} {size d n q k : Nat}

theorem digits_zero (sizes : List Nat) : digits sizes 0 = List.replicate sizes.length 0 := by
  induction sizes with
  | nil => rfl
  | cons size sizes ih =>
    rw [digits, Nat.zero_mod, Nat.zero_div, ih, List.length_cons, List.replicate_succ]

theorem digits_mul_add (hd : d < size) : digits (size :: sizes) (size * q + d) = d :: digits sizes q := by
  have hpos : 0 < size := Nat.lt_of_le_of_lt (Nat.zero_le d) hd
  rw [digits, Nat.mul_add_mod, Nat.mod_eq_of_lt hd, Nat.mul_add_div hpos, Nat.div_eq_of_lt hd,
    Nat.add_zero]

theorem mul_add_lt_mul_iff (hd : d < size) : size * q + d < size * k ↔ q < k := by
  have hpos : 0 < size := Nat.lt_of_le_of_lt (Nat.zero_le d) hd
  constructor
  · intro h
    have hdiv := Nat.div_lt_of_lt_mul h
    rwa [Nat.mul_add_div hpos, Nat.div_eq_of_lt hd, Nat.add_zero] at hdiv
  · intro h
    calc
      size * q + d < size * q + size := Nat.add_lt_add_left hd _
      _ = size * (q + 1) := (Nat.mul_succ size q).symm
      _ ≤ size * k := Nat.mul_le_mul_left size h

/-- One step of the odometer is one step of the number. -/
theorem advance_digits (hn : n < sizes.prod) : advance sizes (digits sizes n) =
    if n + 1 < sizes.prod then some (digits sizes (n + 1)) else none := by
  induction sizes generalizing n with
  | nil =>
    rw [List.prod_nil] at hn ⊢
    rw [if_neg (by omega)]
    rfl
  | cons size sizes ih =>
    rw [List.prod_cons] at hn ⊢
    have hsize : 0 < size := Nat.pos_of_ne_zero fun h => by simp [h] at hn
    obtain ⟨q, d, hd, rfl⟩ : ∃ q d, d < size ∧ n = size * q + d :=
      ⟨n / size, n % size, Nat.mod_lt n hsize, (Nat.div_add_mod n size).symm⟩
    have hq : q < sizes.prod := (mul_add_lt_mul_iff hd).1 hn
    rw [digits_mul_add hd, advance]
    by_cases hlast : d + 1 < size
    · rw [if_pos hlast, Nat.add_assoc, digits_mul_add hlast, if_pos ((mul_add_lt_mul_iff hlast).2 hq)]
    · -- the first place starts again, and the carry moves the rest on
      have hcarry : size * q + d + 1 = size * (q + 1) + 0 := by
        rw [Nat.mul_succ]
        omega
      rw [if_neg hlast, ih hq, hcarry, digits_mul_add hsize]
      simp only [mul_add_lt_mul_iff hsize]
      split <;> rfl

theorem forall₂_digits (hn : n < sizes.prod) : List.Forall₂ (· < ·) (digits sizes n) sizes := by
  induction sizes generalizing n with
  | nil => exact .nil
  | cons size sizes ih =>
    rw [List.prod_cons] at hn
    have hsize : 0 < size := Nat.pos_of_ne_zero fun h => by simp [h] at hn
    exact .cons (Nat.mod_lt n hsize) (ih (Nat.div_lt_of_lt_mul hn))

/-- A position within each of the lists is numbered, and once only. -/
theorem existsUnique_digits_iff :
    (∃! n, n < sizes.prod ∧ digits sizes n = ds) ↔ List.Forall₂ (· < ·) ds sizes := by
  constructor
  · rintro ⟨n, ⟨hn, rfl⟩, -⟩
    exact forall₂_digits hn
  · intro h
    induction h with
    | nil => exact ⟨0, ⟨by decide, rfl⟩, fun n hn => by simpa using hn.1⟩
    | @cons d size ds sizes hd _ ih =>
      obtain ⟨q, ⟨hq, rfl⟩, huniq⟩ := ih
      refine ⟨size * q + d, ⟨?_, digits_mul_add hd⟩, ?_⟩
      · rw [List.prod_cons]
        exact (mul_add_lt_mul_iff hd).2 hq
      · rintro n ⟨hn, hdigits⟩
        rw [List.prod_cons] at hn
        obtain ⟨rfl, hrest⟩ := List.cons.inj hdigits
        rw [← huniq (n / size) ⟨Nat.div_lt_of_lt_mul hn, hrest⟩, Nat.div_add_mod]

end

/-! ## Combinations by number -/

theorem map_range_mul {α : Type} (f : Nat → α) (size count : Nat) :
    (List.range (size * count)).map f =
      (List.range count).flatMap fun q => (List.range size).map fun d => f (size * q + d) := by
  induction count with
  | zero => simp
  | succ count ih =>
    rw [Nat.mul_succ, List.range_add, List.map_append, ih, List.range_succ, List.flatMap_append]
    simp [Function.comp_def]

theorem combinations_concat (choices : List (SymbolId × List Value)) (s : SymbolId) (vs : List Value)
    (picked : List (SymbolId × Value)) : combinations (choices ++ [(s, vs)]) picked =
      (combinations choices picked).flatMap fun qs => vs.map fun v => (s, v) :: qs := by
  induction choices generalizing picked with
  | nil => simp [combinations, List.map_eq_flatMap]
  | cons c rest ih =>
    obtain ⟨t, us⟩ := c
    simp only [List.cons_append, combinations, ih, List.flatMap_assoc]

/-- How many values there are to choose from for each symbol. -/
def choiceSizes (choices : List (SymbolId × List Int64)) : List Nat :=
  choices.map (·.2.length)

namespace Problem

variable {p : Problem} {choices : List (SymbolId × List Int64)} {halt? : Nat → Option Doubt} {b : Budget}
  {limit tried n k : Nat} {m : Model} {d : Doubt}

/-- The values at the given positions, each with its symbol. -/
def picks (p : Problem) : List (SymbolId × List Int64) → List Nat → List (SymbolId × Value)
  | (s, ns) :: rest, d :: ds => (s, p.valueOf s (ns.getD d 0)) :: p.picks rest ds
  | _, _ => []

/-- The model that gives each of the symbols the value at its position, one after the other. -/
def reading (p : Problem) (choices : List (SymbolId × List Int64)) (ds : List Nat) : Model :=
  .ofList (p.picks choices ds)

/-- The `n`-th combination of the choices. -/
def combination (p : Problem) (choices : List (SymbolId × List Int64)) (n : Nat) : Model :=
  p.reading choices (digits (choiceSizes choices) n)

theorem picks_mul_add {s : SymbolId} {ns : List Int64} {rest : List (SymbolId × List Int64)}
    {q d : Nat} (hd : d < ns.length) :
    p.picks ((s, ns) :: rest) (digits (choiceSizes ((s, ns) :: rest)) (ns.length * q + d)) =
      (s, p.valueOf s (ns.getD d 0)) :: p.picks rest (digits (choiceSizes rest) q) := by
  rw [choiceSizes, List.map_cons, digits_mul_add hd, picks, choiceSizes]

/-- The search's combinations are those with the numbers from zero on, in this order. -/
theorem combinations_eq_map_picks (p : Problem) (choices : List (SymbolId × List Int64)) :
    combinations (choices.reverse.map fun (s, ns) => (s, ns.map (p.valueOf s))) [] =
      (List.range (choiceSizes choices).prod).map fun n =>
        p.picks choices (digits (choiceSizes choices) n) := by
  induction choices with
  | nil => rfl
  | cons c rest ih =>
    obtain ⟨s, ns⟩ := c
    have hcount : (choiceSizes ((s, ns) :: rest)).prod = ns.length * (choiceSizes rest).prod :=
      List.prod_cons
    rw [List.reverse_cons, List.map_append, List.map_singleton, combinations_concat, ih, hcount,
      map_range_mul, List.flatMap_map]
    congr 1
    funext q
    refine List.ext_getElem (by simp) fun d hd hd' => ?_
    have hd : d < ns.length := by simpa using hd
    simp [picks_mul_add hd, hd]

/-! ## Attempts in order -/

/-- None of the first `k` combinations completes. -/
def FailsBelow (p : Problem) (choices : List (SymbolId × List Int64)) (k : Nat) : Prop :=
  ∀ n < k, p.complete (p.combination choices n) = none

/-- The search goes past the first `k` combinations: nothing stops it, and none of them completes. -/
def GoesPast (p : Problem) (halt? : Nat → Option Doubt) (choices : List (SymbolId × List Int64))
    (k : Nat) : Prop :=
  ∀ n < k, halt? n = none ∧ p.complete (p.combination choices n) = none

/-- What comes of trying the combinations with the numbers from `n` on, where there is a reason to stop
at the numbers that `halt?` names. -/
def tryFrom (p : Problem) (halt? : Nat → Option Doubt) (choices : List (SymbolId × List Int64)) (n : Nat) :
    SearchResult :=
  firstSuccess (p.attempt halt?) ((List.range' n ((choiceSizes choices).prod - n)).map fun n =>
    p.picks choices (digits (choiceSizes choices) n)) n

theorem search_eq_tryFrom (p : Problem) (b : Budget) (choices : List (SymbolId × List Int64))
    (limit : Nat) : p.search b choices limit = p.tryFrom (b.halt? limit) choices 0 := by
  rw [search, tryAll_eq_firstSuccess, combinations_eq_map_picks, List.range_eq_range', tryFrom,
    Nat.sub_zero]

theorem tryFrom_prod (p : Problem) (halt? : Nat → Option Doubt) (choices : List (SymbolId × List Int64)) :
    p.tryFrom halt? choices (choiceSizes choices).prod = .exhausted (choiceSizes choices).prod := by
  rw [tryFrom, Nat.sub_self]
  rfl

/-- One attempt: it is stopped, it succeeds, or the next number is up. -/
theorem tryFrom_of_lt (hn : n < (choiceSizes choices).prod) : p.tryFrom halt? choices n =
    match halt? n with
    | some d => .stopped d
    | none =>
      match p.complete (p.combination choices n) with
      | some m => .found m
      | none => p.tryFrom halt? choices (n + 1) := by
  have h : (choiceSizes choices).prod - n = (choiceSizes choices).prod - (n + 1) + 1 := by omega
  rw [tryFrom, h, List.range'_succ, List.map_cons, firstSuccess_attempt_cons]
  rfl

/-- Attempts that are not stopped and fail do nothing but go on. -/
theorem tryFrom_of_goesPast (hcount : k ≤ (choiceSizes choices).prod) (h : p.GoesPast halt? choices k) :
    p.tryFrom halt? choices 0 = p.tryFrom halt? choices k := by
  induction k with
  | zero => rfl
  | succ k ih =>
    have hk : k < (choiceSizes choices).prod := hcount
    obtain ⟨hgo, hfails⟩ := h k (Nat.lt_succ_self k)
    rw [ih (Nat.le_of_lt hk) fun n hn => h n (Nat.lt_succ_of_lt hn), tryFrom_of_lt hk, hgo, hfails]

/-- The search goes past the first `k` combinations, or there is a first one that it does not go past. -/
theorem exists_first_or_goesPast (p : Problem) (halt? : Nat → Option Doubt)
    (choices : List (SymbolId × List Int64)) (k : Nat) :
    (∃ n < k, p.GoesPast halt? choices n ∧ ((∃ d, halt? n = some d) ∨
      halt? n = none ∧ ∃ m, p.complete (p.combination choices n) = some m)) ∨
    p.GoesPast halt? choices k := by
  induction k with
  | zero => exact .inr fun n hn => absurd hn (Nat.not_lt_zero n)
  | succ k ih =>
    rcases ih with ⟨n, hn, hfirst⟩ | hpast
    · exact .inl ⟨n, Nat.lt_succ_of_lt hn, hfirst⟩
    · cases hhalt : halt? k with
      | some d => exact .inl ⟨k, Nat.lt_succ_self k, hpast, .inl ⟨d, hhalt⟩⟩
      | none =>
        cases hk : p.complete (p.combination choices k) with
        | some m => exact .inl ⟨k, Nat.lt_succ_self k, hpast, .inr ⟨hhalt, m, hk⟩⟩
        | none =>
          refine .inr fun n hn => ?_
          rcases Nat.lt_succ_iff_lt_or_eq.1 hn with hlt | rfl
          · exact hpast n hlt
          · exact ⟨hhalt, hk⟩

theorem tryFrom_eq_found (hcount : n < (choiceSizes choices).prod) (hpast : p.GoesPast halt? choices n)
    (hgo : halt? n = none) (hm : p.complete (p.combination choices n) = some m) :
    p.tryFrom halt? choices 0 = .found m := by
  rw [tryFrom_of_goesPast (Nat.le_of_lt hcount) hpast, tryFrom_of_lt hcount, hgo, hm]

theorem tryFrom_eq_exhausted (hpast : p.GoesPast halt? choices (choiceSizes choices).prod) :
    p.tryFrom halt? choices 0 = .exhausted (choiceSizes choices).prod := by
  rw [tryFrom_of_goesPast (Nat.le_refl _) hpast, tryFrom_prod]

theorem tryFrom_eq_stopped (hcount : n < (choiceSizes choices).prod)
    (hpast : p.GoesPast halt? choices n) (hhalt : halt? n = some d) :
    p.tryFrom halt? choices 0 = .stopped d := by
  rw [tryFrom_of_goesPast (Nat.le_of_lt hcount) hpast, tryFrom_of_lt hcount, hhalt]

/-- What trying all combinations can come to, with the reason. -/
theorem tryFrom_cases (p : Problem) (halt? : Nat → Option Doubt) (choices : List (SymbolId × List Int64)) :
    (∃ n m, n < (choiceSizes choices).prod ∧ p.GoesPast halt? choices n ∧ halt? n = none ∧
      p.complete (p.combination choices n) = some m ∧ p.tryFrom halt? choices 0 = .found m) ∨
    (p.GoesPast halt? choices (choiceSizes choices).prod ∧
      p.tryFrom halt? choices 0 = .exhausted (choiceSizes choices).prod) ∨
    (∃ n d, n < (choiceSizes choices).prod ∧ p.GoesPast halt? choices n ∧ halt? n = some d ∧
      p.tryFrom halt? choices 0 = .stopped d) := by
  rcases exists_first_or_goesPast p halt? choices (choiceSizes choices).prod with
    ⟨n, hcount, hpast, ⟨d, hhalt⟩ | ⟨hgo, m, hm⟩⟩ | hpast
  · exact .inr (.inr ⟨n, d, hcount, hpast, hhalt, tryFrom_eq_stopped hcount hpast hhalt⟩)
  · exact .inl ⟨n, m, hcount, hpast, hgo, hm, tryFrom_eq_found hcount hpast hgo hm⟩
  · exact .inr (.inl ⟨hpast, tryFrom_eq_exhausted hpast⟩)

theorem tryFrom_eq_found_iff : p.tryFrom halt? choices 0 = .found m ↔
    ∃ n < (choiceSizes choices).prod, p.GoesPast halt? choices n ∧ halt? n = none ∧
      p.complete (p.combination choices n) = some m := by
  constructor
  · intro h
    rcases tryFrom_cases p halt? choices with ⟨n, m', hcount, hpast, hgo, hm, h'⟩ | ⟨_, h'⟩ |
      ⟨_, _, _, _, _, h'⟩ <;> cases h.symm.trans h'
    exact ⟨n, hcount, hpast, hgo, hm⟩
  · rintro ⟨n, hcount, hpast, hgo, hm⟩
    exact tryFrom_eq_found hcount hpast hgo hm

theorem tryFrom_eq_exhausted_iff : p.tryFrom halt? choices 0 = .exhausted tried ↔
    tried = (choiceSizes choices).prod ∧ p.GoesPast halt? choices (choiceSizes choices).prod := by
  constructor
  · intro h
    rcases tryFrom_cases p halt? choices with ⟨_, _, _, _, _, _, h'⟩ | ⟨hpast, h'⟩ |
      ⟨_, _, _, _, _, h'⟩ <;> cases h.symm.trans h'
    exact ⟨rfl, hpast⟩
  · rintro ⟨rfl, hpast⟩
    exact tryFrom_eq_exhausted hpast

theorem tryFrom_eq_stopped_iff : p.tryFrom halt? choices 0 = .stopped d ↔
    ∃ n < (choiceSizes choices).prod, p.GoesPast halt? choices n ∧ halt? n = some d := by
  constructor
  · intro h
    rcases tryFrom_cases p halt? choices with ⟨_, _, _, _, _, _, h'⟩ | ⟨_, h'⟩ |
      ⟨n, d', hcount, hpast, hhalt, h'⟩ <;> cases h.symm.trans h'
    exact ⟨n, hcount, hpast, hhalt⟩
  · rintro ⟨n, hcount, hpast, hhalt⟩
    exact tryFrom_eq_stopped hcount hpast hhalt

/-! ## The odometer -/

/-- Read the odometer and try the combination, then move the odometer on, unless the limit is reached or a
poll stops the search first. -/
def odometer (p : Problem) (b : Budget) (choices : List (SymbolId × List Int64)) (limit : Nat)
    (ds : List Nat) (tried : Nat) : SearchResult :=
  if limit ≤ tried then .stopped (.noneAmong tried)
  else
    match b.poll? tried with
    | some d => .stopped d
    | none =>
      match p.complete (p.reading choices ds) with
      | some m => .found m
      | none =>
        match advance (choiceSizes choices) ds with
        | some ds => p.odometer b choices limit ds (tried + 1)
        | none => .exhausted (tried + 1)
  termination_by limit - tried

/-- The step of an odometer at the number `n`. -/
theorem odometer_of_lt (hn : n < (choiceSizes choices).prod) :
    p.odometer b choices limit (digits (choiceSizes choices) n) n =
      match b.halt? limit n with
      | some d => .stopped d
      | none =>
        match p.complete (p.combination choices n) with
        | some m => .found m
        | none =>
          if n + 1 < (choiceSizes choices).prod then
            p.odometer b choices limit (digits (choiceSizes choices) (n + 1)) (n + 1)
          else .exhausted (n + 1) := by
  rw [odometer, Budget.halt?, ← combination, advance_digits hn]
  by_cases hlimit : limit ≤ n
  · rw [if_pos hlimit, if_pos hlimit]
  · rw [if_neg hlimit, if_neg hlimit]
    by_cases hnext : n + 1 < (choiceSizes choices).prod
    · rw [if_pos hnext, if_pos hnext]
    · rw [if_neg hnext, if_neg hnext]

/-- An odometer at the number `n` tries the combinations from there on. -/
theorem odometer_digits (hn : n < (choiceSizes choices).prod) :
    p.odometer b choices limit (digits (choiceSizes choices) n) n =
      p.tryFrom (b.halt? limit) choices n := by
  -- the induction is on how many combinations come after the `n`-th
  obtain ⟨k, hk⟩ := Nat.exists_eq_add_of_lt hn
  induction k generalizing n with
  | zero =>
    have hlast : n + 1 = (choiceSizes choices).prod := by omega
    rw [odometer_of_lt hn, tryFrom_of_lt hn, if_neg (by omega), hlast, tryFrom_prod]
  | succ k ih =>
    have hnext : n + 1 < (choiceSizes choices).prod := by omega
    rw [odometer_of_lt hn, tryFrom_of_lt hn, if_pos hnext, ih hnext (by omega)]

theorem prod_choiceSizes_eq_zero_iff :
    (choiceSizes choices).prod = 0 ↔ choices.any (·.2.isEmpty) = true := by
  induction choices with
  | nil => decide
  | cons c rest ih =>
    have hcount : (choiceSizes (c :: rest)).prod = c.2.length * (choiceSizes rest).prod :=
      List.prod_cons
    rw [hcount, Nat.mul_eq_zero, ih, List.any_cons, Bool.or_eq_true, List.isEmpty_iff,
      List.length_eq_zero_iff]

/-- The search is that of an odometer which starts at the first values, unless there is nothing to
choose from for some symbol. -/
theorem search_eq_odometer (p : Problem) (b : Budget) (choices : List (SymbolId × List Int64))
    (limit : Nat) :
    p.search b choices limit = if choices.any (·.2.isEmpty) then .exhausted 0
      else p.odometer b choices limit (List.replicate choices.length 0) 0 := by
  rw [search_eq_tryFrom]
  by_cases hempty : choices.any (·.2.isEmpty) = true
  · have h := tryFrom_prod p (b.halt? limit) choices
    rw [prod_choiceSizes_eq_zero_iff.2 hempty] at h
    rw [if_pos hempty, h]
  · have hcount : 0 < (choiceSizes choices).prod :=
      Nat.pos_of_ne_zero fun h => hempty (prod_choiceSizes_eq_zero_iff.1 h)
    have hstart := digits_zero (choiceSizes choices)
    rw [choiceSizes, List.length_map, ← choiceSizes] at hstart
    rw [if_neg hempty, ← hstart, odometer_digits hcount]

/-! ## Searches that no poll stops -/

theorem halt?_of_quiet (hquiet : ∀ n, b.exhausted? n = none) (limit tried : Nat) :
    b.halt? limit tried = if limit ≤ tried then some (.noneAmong tried) else none := by
  rw [Budget.halt?, Budget.poll?, hquiet, ite_self]

theorem halt?_eq_none_iff_of_quiet (hquiet : ∀ n, b.exhausted? n = none) :
    b.halt? limit n = none ↔ n < limit := by
  rw [halt?_of_quiet hquiet]
  by_cases h : limit ≤ n
  · simp [h, Nat.not_lt.2 h]
  · rw [if_neg h]
    exact ⟨fun _ => Nat.lt_of_not_le h, fun _ => rfl⟩

theorem goesPast_iff_of_quiet (hquiet : ∀ n, b.exhausted? n = none) :
    p.GoesPast (b.halt? limit) choices k ↔ k ≤ limit ∧ p.FailsBelow choices k := by
  constructor
  · intro h
    refine ⟨?_, fun n hn => (h n hn).2⟩
    by_contra hlt
    have hlimit := (halt?_eq_none_iff_of_quiet hquiet).1 (h limit (by omega)).1
    omega
  · rintro ⟨hlimit, hfails⟩ n hn
    exact ⟨(halt?_eq_none_iff_of_quiet hquiet).2 (by omega), hfails n hn⟩

theorem tryFrom_eq_found_iff_of_quiet (hquiet : ∀ n, b.exhausted? n = none) :
    p.tryFrom (b.halt? limit) choices 0 = .found m ↔ ∃ n, n < (choiceSizes choices).prod ∧ n < limit ∧
      p.FailsBelow choices n ∧ p.complete (p.combination choices n) = some m := by
  rw [tryFrom_eq_found_iff]
  simp only [goesPast_iff_of_quiet hquiet, halt?_eq_none_iff_of_quiet hquiet]
  constructor
  · rintro ⟨n, hcount, ⟨-, hfails⟩, hlimit, hm⟩
    exact ⟨n, hcount, hlimit, hfails, hm⟩
  · rintro ⟨n, hcount, hlimit, hfails, hm⟩
    exact ⟨n, hcount, ⟨Nat.le_of_lt hlimit, hfails⟩, hlimit, hm⟩

theorem tryFrom_eq_exhausted_iff_of_quiet (hquiet : ∀ n, b.exhausted? n = none) :
    p.tryFrom (b.halt? limit) choices 0 = .exhausted tried ↔ tried = (choiceSizes choices).prod ∧
      (choiceSizes choices).prod ≤ limit ∧ p.FailsBelow choices (choiceSizes choices).prod := by
  rw [tryFrom_eq_exhausted_iff, goesPast_iff_of_quiet hquiet]

/-- The only reason to stop is then the limit, and it is met at the first number that it does not allow. -/
theorem tryFrom_eq_stopped_iff_of_quiet (hquiet : ∀ n, b.exhausted? n = none) :
    p.tryFrom (b.halt? limit) choices 0 = .stopped d ↔ d = .noneAmong limit ∧
      limit < (choiceSizes choices).prod ∧ p.FailsBelow choices limit := by
  rw [tryFrom_eq_stopped_iff]
  simp only [goesPast_iff_of_quiet hquiet, halt?_of_quiet hquiet]
  constructor
  · rintro ⟨n, hcount, ⟨hle, hfails⟩, hhalt⟩
    split at hhalt
    · obtain rfl : n = limit := by omega
      cases hhalt
      exact ⟨rfl, hcount, hfails⟩
    · cases hhalt
  · rintro ⟨rfl, hcount, hfails⟩
    exact ⟨limit, hcount, ⟨Nat.le_refl _, hfails⟩, if_pos (Nat.le_refl _)⟩

/-- The combinations are numbered in the order of an odometer whose first place moves fastest, each
choice of positions once. A search tries them in this order, whatever its polls are answered. If none of
them stops it, it finds the first combination that completes, unless this is beyond the limit; it is
exhausted if none completes and the limit allows them all, of which there are none where a list is empty;
and it is stopped if none completes up to the limit and there are more. -/
theorem search_in_order (p : Problem) (b : Budget) (choices : List (SymbolId × List Int64))
    (limit : Nat) :
    (∀ ds, (∃! n, n < (choiceSizes choices).prod ∧ digits (choiceSizes choices) n = ds) ↔
      List.Forall₂ (· < ·) ds (choiceSizes choices)) ∧
    (p.search b choices limit = if choices.any (·.2.isEmpty) then .exhausted 0
      else p.odometer b choices limit (List.replicate choices.length 0) 0) ∧
    ((∀ n, b.exhausted? n = none) →
      (∀ m, p.search b choices limit = .found m ↔ ∃ n, n < (choiceSizes choices).prod ∧ n < limit ∧
        p.FailsBelow choices n ∧ p.complete (p.combination choices n) = some m) ∧
      (∀ tried, p.search b choices limit = .exhausted tried ↔ tried = (choiceSizes choices).prod ∧
        (choiceSizes choices).prod ≤ limit ∧ p.FailsBelow choices (choiceSizes choices).prod) ∧
      (∀ d, p.search b choices limit = .stopped d ↔ d = .noneAmong limit ∧
        limit < (choiceSizes choices).prod ∧ p.FailsBelow choices limit)) := by
  refine ⟨fun ds => existsUnique_digits_iff, search_eq_odometer p b choices limit, fun hquiet => ?_⟩
  simp only [search_eq_tryFrom]
  exact ⟨fun m => tryFrom_eq_found_iff_of_quiet hquiet,
    fun tried => tryFrom_eq_exhausted_iff_of_quiet hquiet, fun d => tryFrom_eq_stopped_iff_of_quiet hquiet⟩

end Problem

/-- As many attempts as there are sides are enough to know that none will do; with one less, one is
open. -/
theorem search_in_order_plot : (∀ n, Budget.exhausted? {} n = none) ∧
    plot.search {} [(0, [0, 1, 2, 3])] 4 = .exhausted 4 ∧
    plot.search {} [(0, [0, 1, 2, 3])] 3 = .stopped (.noneAmong 3) := by
  have hquiet : ∀ n, Budget.exhausted? {} n = none := fun _ => rfl
  have hfails : plot.FailsBelow [(0, [0, 1, 2, 3])] 4 := by
    unfold Problem.FailsBelow
    decide +kernel
  obtain ⟨-, hexhausted, -⟩ := (plot.search_in_order {} [(0, [0, 1, 2, 3])] 4).2.2 hquiet
  obtain ⟨-, -, hstopped⟩ := (plot.search_in_order {} [(0, [0, 1, 2, 3])] 3).2.2 hquiet
  refine ⟨hquiet, (hexhausted 4).2 ⟨rfl, by decide, hfails⟩, (hstopped _).2 ⟨rfl, by decide, ?_⟩⟩
  exact fun n hn => hfails n (Nat.lt_succ_of_lt hn)

end Pathwise
