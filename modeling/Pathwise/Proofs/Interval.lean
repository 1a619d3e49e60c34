import Pathwise.Interval

/-!
Operations on intervals contain the results of the operators on their members.

Sums, differences, products and quotients are bounded by their values at the ends: a value lies between
those at the two ends of one operand, and each of these between those at the ends of the other
(`mem_corners`). Main statements: `mem_onIntervals` for both kinds of operators.
-/

namespace Pathwise

/-! ## Exact results -/

theorem toInt_bounds (a : Int64) :
    -9223372036854775808 ≤ a.toInt ∧ a.toInt ≤ 9223372036854775807 := by
  have hl := a.le_toInt
  have hh := a.toInt_lt
  omega

theorem toInt_ofInt_of_bounds {r : Int}
    (h : -9223372036854775808 ≤ r ∧ r ≤ 9223372036854775807) : (Int64.ofInt r).toInt = r :=
  Int64.toInt_ofInt_of_le (by omega) (by omega)

theorem toInt_of_fit {r : Int} {n : Int64} (h : fit r = .ok n) : n.toInt = r := by
  unfold fit fit? at h
  split at h
  · rename_i k hk
    split at hk
    · rename_i hr
      cases hk
      cases h
      exact toInt_ofInt_of_bounds hr
    · cases hk
  · cases h

theorem toInt_max (a b : Int64) : (max a b).toInt = max a.toInt b.toInt := by
  simp only [Max.max, Int64.le_iff_toInt_le]
  split <;> rfl

theorem toInt_min (a b : Int64) : (min a b).toInt = min a.toInt b.toInt := by
  simp only [Min.min, Int64.le_iff_toInt_le]
  split <;> rfl

/-! ## Members -/

namespace Interval

variable {i j : Interval} {n : Int64}

theorem mem_iff : n ∈ i ↔ i.lo.toInt ≤ n.toInt ∧ n.toInt ≤ i.hi.toInt := by
  rw [← Int64.le_iff_toInt_le, ← Int64.le_iff_toInt_le]
  exact Iff.rfl

theorem contains_iff : i.contains n = true ↔ n ∈ i := by
  simp only [contains, Bool.and_eq_true, decide_eq_true_eq]
  exact Iff.rfl

theorem isEmpty_of_mem (h : n ∈ i) : i.isEmpty = false := by
  rw [mem_iff] at h
  simp only [isEmpty, decide_eq_false_iff_not, Int64.lt_iff_toInt_lt]
  omega

theorem mem_full (n : Int64) : n ∈ full :=
  ⟨n.minValue_le, n.le_maxValue⟩

theorem mem_point (n : Int64) : n ∈ point n :=
  ⟨Int64.le_refl n, Int64.le_refl n⟩

theorem mem_ofBounds {lo hi : Int} (hl : lo ≤ n.toInt) (hh : n.toInt ≤ hi) : n ∈ ofBounds lo hi := by
  have hmin : Int64.minValue.toInt = -9223372036854775808 := rfl
  have hmax : Int64.maxValue.toInt = 9223372036854775807 := rfl
  have hn := toInt_bounds n
  simp only [ofBounds, hmin, hmax]
  rw [if_neg (by omega), mem_iff]
  simp only
  rw [toInt_ofInt_of_bounds (by omega), toInt_ofInt_of_bounds (by omega)]
  omega

theorem mem_toList (h : n ∈ i) : n ∈ i.toList := by
  rw [mem_iff] at h
  refine List.mem_map.2 ⟨(n.toInt - i.lo.toInt).toNat, List.mem_range.2 ?_, ?_⟩
  · unfold size
    omega
  · have hk : i.lo.toInt + ((n.toInt - i.lo.toInt).toNat : Int) = n.toInt := by omega
    rw [hk, Int64.ofInt_toInt]

theorem mem_max_min (hi : n ∈ i) (hj : n ∈ j) :
    n ∈ (⟨max i.lo j.lo, min i.hi j.hi⟩ : Interval) := by
  rw [mem_iff] at hi hj ⊢
  simp only [toInt_max, toInt_min]
  omega

theorem intersect_of_mem (hi : n ∈ i) (hj : n ∈ j) :
    i.intersect j = ⟨max i.lo j.lo, min i.hi j.hi⟩ := by
  simp only [intersect, isEmpty_of_mem (mem_max_min hi hj), Bool.false_eq_true, ↓reduceIte]

theorem mem_intersect (hi : n ∈ i) (hj : n ∈ j) : n ∈ i.intersect j := by
  rw [intersect_of_mem hi hj]
  exact mem_max_min hi hj

theorem mem_hull_left (h : n ∈ i) : n ∈ i.hull j := by
  simp only [hull, isEmpty_of_mem h, Bool.false_eq_true, ↓reduceIte]
  split
  · exact h
  · rw [mem_iff] at h ⊢
    simp only [toInt_max, toInt_min]
    omega

theorem mem_hull_right (h : n ∈ j) : n ∈ i.hull j := by
  simp only [hull, isEmpty_of_mem h, Bool.false_eq_true, ↓reduceIte]
  split
  · exact h
  · rw [mem_iff] at h ⊢
    simp only [toInt_max, toInt_min]
    omega

/-! ## Values at the ends -/

/-- `w` lies between `u` and `v`, whichever of them is the larger. -/
def Between (u v w : Int) : Prop := min u v ≤ w ∧ w ≤ max u v

/-- A result that lies between those at the ends of one operand and then of the other is within the
corners. -/
theorem mem_corners {f : Int → Int → Int} {a b c : Int64} (ha : a ∈ i) (hb : b ∈ j)
    (hc : c.toInt = f a.toInt b.toInt)
    (h : Between (f i.lo.toInt b.toInt) (f i.hi.toInt b.toInt) (f a.toInt b.toInt))
    (hlo : Between (f i.lo.toInt j.lo.toInt) (f i.lo.toInt j.hi.toInt) (f i.lo.toInt b.toInt))
    (hhi : Between (f i.hi.toInt j.lo.toInt) (f i.hi.toInt j.hi.toInt) (f i.hi.toInt b.toInt)) :
    c ∈ corners f i j := by
  simp only [corners, isEmpty_of_mem ha, isEmpty_of_mem hb, Bool.or_self, Bool.false_eq_true,
    ↓reduceIte]
  unfold Between at h hlo hhi
  apply mem_ofBounds
  · rw [hc]
    omega
  · rw [hc]
    omega

theorem between_mul_left {lo x hi : Int} (y : Int) (hl : lo ≤ x) (hh : x ≤ hi) :
    Between (lo * y) (hi * y) (x * y) := by
  unfold Between
  rcases Int.le_total 0 y with hy | hy
  · have h₁ := Int.mul_le_mul_of_nonneg_right hl hy
    have h₂ := Int.mul_le_mul_of_nonneg_right hh hy
    omega
  · have h₁ := Int.mul_le_mul_of_nonpos_right hl hy
    have h₂ := Int.mul_le_mul_of_nonpos_right hh hy
    omega

theorem between_mul_right {lo y hi : Int} (x : Int) (hl : lo ≤ y) (hh : y ≤ hi) :
    Between (x * lo) (x * hi) (x * y) := by
  rw [Int.mul_comm x lo, Int.mul_comm x hi, Int.mul_comm x y]
  exact between_mul_left x hl hh

theorem between_fdiv_left {lo x hi y : Int} (hy : 0 < y) (hl : lo ≤ x) (hh : x ≤ hi) :
    Between (lo.fdiv y) (hi.fdiv y) (x.fdiv y) := by
  unfold Between
  simp only [Int.fdiv_eq_ediv_of_nonneg _ (Int.le_of_lt hy)]
  have h₁ := Int.ediv_le_ediv hy hl
  have h₂ := Int.ediv_le_ediv hy hh
  omega

/-- Over positive divisors a quotient falls where it is not negative, and rises where it is. -/
theorem ediv_le_ediv_left {x y z : Int} (hy : 0 < y) (hyz : y ≤ z) :
    (0 ≤ x → x / z ≤ x / y) ∧ (x < 0 → x / y ≤ x / z) := by
  have hz : 0 < z := by omega
  constructor
  · intro hx
    rw [Int.le_ediv_iff_mul_le hy]
    calc
      x / z * y ≤ x / z * z := Int.mul_le_mul_of_nonneg_left hyz (Int.ediv_nonneg hx (Int.le_of_lt hz))
      _ ≤ x := Int.ediv_mul_le x (Int.ne_of_gt hz)
  · intro hx
    rw [Int.le_ediv_iff_mul_le hz]
    calc
      x / y * z ≤ x / y * y :=
        Int.mul_le_mul_of_nonpos_left (Int.le_of_lt (Int.ediv_neg_of_neg_of_pos hx hy)) hyz
      _ ≤ x := Int.ediv_mul_le x (Int.ne_of_gt hy)

theorem between_fdiv_right {lo y hi : Int} (x : Int) (hlo : 0 < lo) (hl : lo ≤ y) (hh : y ≤ hi) :
    Between (x.fdiv lo) (x.fdiv hi) (x.fdiv y) := by
  have hy : 0 < y := by omega
  have hhi : 0 < hi := by omega
  unfold Between
  simp only [Int.fdiv_eq_ediv_of_nonneg _ (Int.le_of_lt hlo),
    Int.fdiv_eq_ediv_of_nonneg _ (Int.le_of_lt hy), Int.fdiv_eq_ediv_of_nonneg _ (Int.le_of_lt hhi)]
  have h₁ := @ediv_le_ediv_left x lo y hlo hl
  have h₂ := @ediv_le_ediv_left x y hi hy hh
  rcases Int.lt_or_le x 0 with hx | hx
  · have h₁ := h₁.2 hx
    have h₂ := h₂.2 hx
    omega
  · have h₁ := h₁.1 hx
    have h₂ := h₂.1 hx
    omega

/-- Negative divisors are led back to positive ones by negating both operands. -/
theorem between_fdiv_left_neg {lo x hi y : Int} (hy : y < 0) (hl : lo ≤ x) (hh : x ≤ hi) :
    Between (lo.fdiv y) (hi.fdiv y) (x.fdiv y) := by
  have h := @between_fdiv_left (-hi) (-x) (-lo) (-y) (by omega) (by omega) (by omega)
  simp only [Int.neg_fdiv_neg] at h
  unfold Between at h ⊢
  omega

theorem between_fdiv_right_neg {lo y hi : Int} (x : Int) (hhi : hi < 0) (hl : lo ≤ y) (hh : y ≤ hi) :
    Between (x.fdiv lo) (x.fdiv hi) (x.fdiv y) := by
  have h := @between_fdiv_right (-hi) (-y) (-lo) (-x) (by omega) (by omega) (by omega)
  simp only [Int.neg_fdiv_neg] at h
  unfold Between at h ⊢
  omega

/-- A remainder lies between zero and the divisor, without the divisor. -/
theorem fmod_bounds (x y : Int) : (0 < y → 0 ≤ x.fmod y ∧ x.fmod y < y) ∧
    (y < 0 → y < x.fmod y ∧ x.fmod y ≤ 0) := by
  constructor
  · intro hy
    exact ⟨Int.fmod_nonneg_of_pos x hy, Int.fmod_lt_of_pos x hy⟩
  · intro hy
    have hy' : 0 < -y := by omega
    have h₁ := Int.fmod_nonneg_of_pos (-x) hy'
    have h₂ := Int.fmod_lt_of_pos (-x) hy'
    have h₃ : (-x).fmod (-y) = -x.fmod y := by
      rw [Int.fmod_def, Int.fmod_def, Int.neg_fdiv_neg, Int.neg_mul]
      omega
    omega

/-! ## The operators -/

variable {a b c : Int64}

theorem mem_neg (ha : a ∈ i) (h : fit (-a.toInt) = .ok c) : c ∈ i.neg := by
  have hc := toInt_of_fit h
  simp only [neg, isEmpty_of_mem ha, Bool.false_eq_true, ↓reduceIte]
  rw [mem_iff] at ha
  apply mem_ofBounds <;> omega

theorem mem_abs (ha : a ∈ i) (h : fit a.toInt.natAbs = .ok c) : c ∈ i.abs := by
  have hc := toInt_of_fit h
  have ha' := mem_iff.1 ha
  have h0 : (0 : Int64).toInt = 0 := rfl
  simp only [abs, isEmpty_of_mem ha, Bool.false_eq_true, ↓reduceIte, Int64.le_iff_toInt_le, h0]
  split
  · rw [mem_iff]
    omega
  · split
    · refine mem_neg ha ?_
      rw [← h]
      congr 1
      omega
    · apply mem_ofBounds <;> omega

theorem mem_add (ha : a ∈ i) (hb : b ∈ j) (h : fit (a.toInt + b.toInt) = .ok c) : c ∈ i.add j := by
  have ha' := mem_iff.1 ha
  have hb' := mem_iff.1 hb
  refine mem_corners ha hb (toInt_of_fit h) ?_ ?_ ?_ <;> unfold Between <;> omega

theorem mem_sub (ha : a ∈ i) (hb : b ∈ j) (h : fit (a.toInt - b.toInt) = .ok c) : c ∈ i.sub j := by
  have ha' := mem_iff.1 ha
  have hb' := mem_iff.1 hb
  refine mem_corners ha hb (toInt_of_fit h) ?_ ?_ ?_ <;> unfold Between <;> omega

theorem mem_mul (ha : a ∈ i) (hb : b ∈ j) (h : fit (a.toInt * b.toInt) = .ok c) : c ∈ i.mul j := by
  have ha' := mem_iff.1 ha
  have hb' := mem_iff.1 hb
  exact mem_corners ha hb (toInt_of_fit h) (between_mul_left _ ha'.1 ha'.2)
    (between_mul_right _ hb'.1 hb'.2) (between_mul_right _ hb'.1 hb'.2)

theorem mem_negatives (hb : b ∈ j) (h : b.toInt < 0) :
    b ∈ j.negatives ∧ j.negatives.hi.toInt < 0 := by
  have hm : b ∈ (⟨Int64.minValue, -1⟩ : Interval) := by
    refine ⟨b.minValue_le, Int64.le_iff_toInt_le.2 ?_⟩
    show b.toInt ≤ -1
    omega
  refine ⟨mem_intersect hb hm, ?_⟩
  have hhi : (⟨Int64.minValue, -1⟩ : Interval).hi.toInt = -1 := rfl
  rw [negatives, intersect_of_mem hb hm, toInt_min]
  omega

theorem mem_positives (hb : b ∈ j) (h : 0 < b.toInt) :
    b ∈ j.positives ∧ 0 < j.positives.lo.toInt := by
  have hm : b ∈ (⟨1, Int64.maxValue⟩ : Interval) := by
    refine ⟨Int64.le_iff_toInt_le.2 ?_, b.le_maxValue⟩
    show 1 ≤ b.toInt
    omega
  refine ⟨mem_intersect hb hm, ?_⟩
  have hlo : (⟨1, Int64.maxValue⟩ : Interval).lo.toInt = 1 := rfl
  rw [positives, intersect_of_mem hb hm, toInt_max]
  omega

theorem toInt_ne_zero (h : b ≠ 0) : b.toInt ≠ 0 := by
  intro h'
  exact h (Int64.toInt_inj.1 h')

theorem mem_div (ha : a ∈ i) (hb : b ∈ j) (h : floorDiv a b = .ok c) : c ∈ i.div j := by
  unfold floorDiv at h
  split at h
  · cases h
  · rename_i hne
    have hc := toInt_of_fit h
    have ha' := mem_iff.1 ha
    rcases Int.lt_or_gt_of_ne (toInt_ne_zero hne) with hneg | hpos
    · obtain ⟨hm, hhi⟩ := mem_negatives hb hneg
      have hb' := mem_iff.1 hm
      exact mem_hull_left (mem_corners ha hm hc (between_fdiv_left_neg hneg ha'.1 ha'.2)
        (between_fdiv_right_neg _ hhi hb'.1 hb'.2) (between_fdiv_right_neg _ hhi hb'.1 hb'.2))
    · obtain ⟨hm, hlo⟩ := mem_positives hb hpos
      have hb' := mem_iff.1 hm
      exact mem_hull_right (mem_corners ha hm hc (between_fdiv_left hpos ha'.1 ha'.2)
        (between_fdiv_right _ hlo hb'.1 hb'.2) (between_fdiv_right _ hlo hb'.1 hb'.2))

theorem mem_mod (ha : a ∈ i) (hb : b ∈ j) (h : floorMod a b = .ok c) : c ∈ i.mod j := by
  unfold floorMod at h
  split at h
  · cases h
  · rename_i hne
    have hc := toInt_of_fit h
    have hm := fmod_bounds a.toInt b.toInt
    simp only [mod, isEmpty_of_mem ha, Bool.false_eq_true, ↓reduceIte]
    rcases Int.lt_or_gt_of_ne (toInt_ne_zero hne) with hneg | hpos
    · have hm := hm.2 hneg
      obtain ⟨hn, -⟩ := mem_negatives hb hneg
      have hn' := mem_iff.1 hn
      apply mem_hull_left
      simp only [isEmpty_of_mem hn, Bool.false_eq_true, ↓reduceIte]
      exact mem_ofBounds (by omega) (by omega)
    · have hm := hm.1 hpos
      obtain ⟨hp, -⟩ := mem_positives hb hpos
      have hp' := mem_iff.1 hp
      apply mem_hull_right
      simp only [isEmpty_of_mem hp, Bool.false_eq_true, ↓reduceIte]
      exact mem_ofBounds (by omega) (by omega)

theorem eq_of_point? {k : Int64} (hp : i.point? = some k) (h : n ∈ i) : n = k := by
  unfold point? at hp
  split at hp
  · rename_i he
    cases hp
    rw [mem_iff, ← he] at h
    exact Int64.toInt_inj.1 (by omega)
  · cases hp

theorem power_zero (a : Int64) : power a 0 = .ok 1 := by
  have hpow : Int.pow a.toInt (0 : Int64).toInt.toNat = 1 := Int.pow_zero _
  have hfit : fit 1 = .ok 1 := rfl
  unfold power
  rw [hpow, hfit]
  simp

theorem nonneg_of_power (h : power a b = .ok c) : 0 ≤ b := by
  unfold power at h
  split at h
  · cases h
  · rename_i hb
    exact Int64.not_lt.1 hb

theorem mem_pow (ha : a ∈ i) (hb : b ∈ j) (h : power a b = .ok c) : c ∈ i.pow j := by
  have he : b ∈ j.intersect nonNegative := mem_intersect hb ⟨nonneg_of_power h, b.le_maxValue⟩
  simp only [pow, isEmpty_of_mem ha, isEmpty_of_mem he, Bool.or_self, Bool.false_eq_true, ↓reduceIte]
  split
  · rename_i h0
    rw [eq_of_point? h0 he, power_zero] at h
    cases h
    exact mem_point 1
  · split
    · rename_i x y hx hy
      rw [← eq_of_point? hx ha, ← eq_of_point? hy he, h]
      exact mem_point c
    · exact mem_full c

end Interval

/-- What a unary operator answers on a member is in the interval that it answers. -/
theorem UnaryOp.mem_onIntervals {op : UnaryOp} {i : Interval} {a c : Int64} (ha : a ∈ i)
    (h : op.apply a = .ok c) : c ∈ op.onIntervals i := by
  cases op with
  | plus =>
    cases h
    exact ha
  | neg => exact Interval.mem_neg ha h
  | abs => exact Interval.mem_abs ha h

/-- What a binary operator answers on members is in the interval that it answers. -/
theorem ArithOp.mem_onIntervals {op : ArithOp} {i j : Interval} {a b c : Int64} (ha : a ∈ i)
    (hb : b ∈ j) (h : op.apply a b = .ok c) : c ∈ op.onIntervals i j := by
  cases op with
  | add => exact Interval.mem_add ha hb h
  | sub => exact Interval.mem_sub ha hb h
  | mul => exact Interval.mem_mul ha hb h
  | div => exact Interval.mem_div ha hb h
  | mod => exact Interval.mem_mod ha hb h
  | pow => exact Interval.mem_pow ha hb h

end Pathwise
