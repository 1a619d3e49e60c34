import Mathlib.Data.Rat.Floor
import Pathwise.Proofs.Interval

/-!
The arithmetic operators are exact on all 64-bit integers.

The mathematical result of an operator is an integer, or there is none (`ArithOp.result?`). An operator
answers that integer if 64 bits hold it, an overflow if they do not, and a fault of its own where there
is no result (`ArithOp.apply_eq_elim`).

Processors divide by truncation. Floor division and its remainder are got from that by a correction,
and the correction stays within 64 bits (`toInt_corrected`).
-/

namespace Pathwise

variable {a b q r v : Int64}

/-! ## Numbers that 64 bits hold -/

/-- Some 64-bit integer equals `x`. -/
def Fits (x : Int) : Prop := -2 ^ 63 ≤ x ∧ x < 2 ^ 63

theorem fits_iff {x : Int} :
    Fits x ↔ -9223372036854775808 ≤ x ∧ x ≤ 9223372036854775807 := by
  unfold Fits
  omega

theorem fit_eq_ok_iff {x : Int} : fit x = .ok v ↔ x = v.toInt := by
  constructor
  · intro h
    exact (toInt_of_fit h).symm
  · rintro rfl
    simp only [fit, fit?, if_pos (toInt_bounds v), Int64.ofInt_toInt]

theorem fit_eq_error_iff {x : Int} {e : Fault} : fit x = .error e ↔ e = .overflow ∧ ¬ Fits x := by
  rw [fits_iff]
  by_cases h : -9223372036854775808 ≤ x ∧ x ≤ 9223372036854775807
  · have hok : fit x = .ok (Int64.ofInt x) := fit_eq_ok_iff.2 (toInt_ofInt_of_bounds h).symm
    simp [hok, h]
  · simp only [fit, fit?, if_neg h, Except.error.injEq]
    simp [h, eq_comm]

theorem eq_zero_iff_toInt : a = 0 ↔ a.toInt = 0 :=
  Int64.toInt_inj.symm

theorem lt_zero_iff_toInt : a < 0 ↔ a.toInt < 0 :=
  Int64.lt_iff_toInt_lt

/-! ## Results -/

/-- The mathematical result of an operator: quotients are rounded down, the remainder is what the
rounded quotient leaves, and an exponent counts factors. -/
def ArithOp.result? : ArithOp → Int → Int → Option Int
  | add, x, y => some (x + y)
  | sub, x, y => some (x - y)
  | mul, x, y => some (x * y)
  | div, x, y => if y = 0 then none else some ⌊(x / y : ℚ)⌋
  | mod, x, y => if y = 0 then none else some (x - y * ⌊(x / y : ℚ)⌋)
  | pow, x, y => if y < 0 then none else some (x ^ y.toNat)

/-- The fault for operands on which an operator has no result. -/
def ArithOp.refusal : ArithOp → Fault
  | pow => .negativeExponent
  | _ => .divisionByZero

theorem fdiv_eq_floor (x y : Int) : x.fdiv y = ⌊(x / y : ℚ)⌋ := by
  have hnonneg : ∀ (x : Int) (n : Nat), x.fdiv n = ⌊(x / (n : Int) : ℚ)⌋ := by
    intro x n
    rw [Int.fdiv_eq_ediv_of_nonneg x (Int.natCast_nonneg n), Int.cast_natCast,
      Rat.floor_intCast_div_natCast]
  obtain ⟨n, rfl | rfl⟩ := Int.eq_nat_or_neg y
  · exact hnonneg x n
  · have h := hnonneg (-x) n
    rw [← Int.neg_fdiv_neg, Int.neg_neg, h]
    push_cast
    rw [neg_div, div_neg]

/-! ## Powers -/

theorem not_fits_pow {x : Int} {n : Nat} (hx : 2 ≤ x.natAbs) (hn : 64 ≤ n) : ¬ Fits (x ^ n) := by
  have hpow : 2 ^ 64 ≤ (x ^ n).natAbs := by
    calc
      2 ^ 64 ≤ 2 ^ n := Nat.pow_le_pow_right (by decide) hn
      _ ≤ x.natAbs ^ n := Nat.pow_le_pow_left hx n
      _ = (x ^ n).natAbs := (Int.natAbs_pow x n).symm
  unfold Fits
  omega

theorem zero_pow_toNat {y : Int} (hy : 0 ≤ y) : (0 : Int) ^ y.toNat = if y = 0 then 1 else 0 := by
  have hzero : y.toNat = 0 ↔ y = 0 := by omega
  simp only [zero_pow_eq, hzero]

theorem neg_one_pow_toNat {y : Int} (hy : 0 ≤ y) :
    (-1 : Int) ^ y.toNat = if y % 2 = 0 then 1 else -1 := by
  have heven : Even y.toNat ↔ y % 2 = 0 := by
    rw [Nat.even_iff]
    omega
  simp only [neg_one_pow_eq_ite, heven]

/-- A base other than 0, 1 and -1 leaves the range by its 64th power, so the bound on the exponent does
not show in the answer, and neither do the special bases. -/
theorem power_eq (a b : Int64) : power a b =
    if b < 0 then .error .negativeExponent else fit (a.toInt ^ b.toInt.toNat) := by
  unfold power
  split
  · rfl
  next hb =>
    have hb : 0 ≤ b.toInt := Int64.le_iff_toInt_le.1 (Int64.not_lt.1 hb)
    symm
    split
    next ha =>
      subst ha
      refine fit_eq_ok_iff.2 ((zero_pow_toNat hb).trans ?_)
      simp only [eq_zero_iff_toInt]
      split <;> rfl
    split
    next ha =>
      subst ha
      exact fit_eq_ok_iff.2 (one_pow _)
    split
    next ha =>
      subst ha
      refine fit_eq_ok_iff.2 ((neg_one_pow_toNat hb).trans ?_)
      split <;> rfl
    split
    next h0 h1 hm hbig =>
      have h0 := Interval.toInt_ne_zero h0
      have h1 : a.toInt ≠ 1 := fun h => h1 (Int64.toInt_inj.1 h)
      have hm : a.toInt ≠ -1 := fun h => hm (Int64.toInt_inj.1 h)
      exact fit_eq_error_iff.2 ⟨rfl, not_fits_pow (by omega) (by omega)⟩
    · rfl

/-! ## Every operator -/

/-- An operator answers its mathematical result as far as 64 bits hold it. -/
theorem ArithOp.apply_eq_elim (op : ArithOp) (a b : Int64) :
    op.apply a b = (op.result? a.toInt b.toInt).elim (.error op.refusal) fit := by
  cases op with
  | add => rfl
  | sub => rfl
  | mul => rfl
  | div =>
    simp only [apply, floorDiv, result?, eq_zero_iff_toInt, fdiv_eq_floor]
    split <;> rfl
  | mod =>
    simp only [apply, floorMod, result?, eq_zero_iff_toInt, Int.fmod_def, fdiv_eq_floor]
    split <;> rfl
  | pow =>
    simp only [apply, power_eq, result?, lt_zero_iff_toInt]
    split <;> rfl

theorem ArithOp.apply_eq_ok_iff {op : ArithOp} :
    op.apply a b = .ok v ↔ op.result? a.toInt b.toInt = some v.toInt := by
  rw [apply_eq_elim]
  cases op.result? a.toInt b.toInt with
  | none => simp
  | some x => simp [fit_eq_ok_iff]

theorem ArithOp.apply_eq_error_iff {op : ArithOp} {e : Fault} : op.apply a b = .error e ↔
    (op.result? a.toInt b.toInt = none ∧ e = op.refusal) ∨
      e = .overflow ∧ ∃ x, op.result? a.toInt b.toInt = some x ∧ ¬ Fits x := by
  rw [apply_eq_elim]
  cases op.result? a.toInt b.toInt with
  | none => simp [eq_comm]
  | some x => simp [fit_eq_error_iff]

/-- Of the operands of each operator, those that it refuses. -/
theorem ArithOp.result?_eq_none_iff {op : ArithOp} : op.result? a.toInt b.toInt = none ↔
    (op = .div ∨ op = .mod) ∧ b = 0 ∨ op = .pow ∧ b < 0 := by
  cases op <;> simp [result?, eq_zero_iff_toInt, lt_zero_iff_toInt]

/-! ## Division by truncation -/

/-- Quotient and remainder of the division that rounds toward zero, if the quotient is a 64-bit
integer. -/
def truncate? (a b : Int64) : Option (Int64 × Int64) :=
  if a = Int64.minValue ∧ b = -1 then none else some (a / b, a % b)

/-- A remainder on the other side of zero than the divisor shows that the quotient was rounded up. -/
def roundedUp (r b : Int64) : Bool := r ≠ 0 && (r < 0) != (b < 0)

/-- Floor division by way of truncation. -/
def correctedDiv (a b : Int64) : Except Fault Int64 :=
  if b = 0 then .error .divisionByZero
  else
    match truncate? a b with
    | some (q, r) => .ok (if roundedUp r b then q - 1 else q)
    | none => .error .overflow

/-- The remainder of floor division by way of truncation. The smallest number leaves nothing when divided
by -1, although the quotient is out of range. -/
def correctedMod (a b : Int64) : Except Fault Int64 :=
  if b = 0 then .error .divisionByZero
  else
    let r := ((truncate? a b).map (·.2)).getD 0
    .ok (if roundedUp r b then r + b else r)

theorem toInt_add_of_fits (h : Fits (a.toInt + b.toInt)) : (a + b).toInt = a.toInt + b.toInt := by
  unfold Fits at h
  rw [Int64.toInt_add, Int.bmod_eq_of_le (by omega) (by omega)]

theorem toInt_sub_of_fits (h : Fits (a.toInt - b.toInt)) : (a - b).toInt = a.toInt - b.toInt := by
  unfold Fits at h
  rw [Int64.toInt_sub, Int.bmod_eq_of_le (by omega) (by omega)]

theorem toInt_of_truncate? (h : truncate? a b = some (q, r)) :
    q.toInt = a.toInt.tdiv b.toInt ∧ r.toInt = a.toInt.tmod b.toInt := by
  unfold truncate? at h
  split at h
  · cases h
  next hne =>
    cases h
    refine ⟨?_, Int64.toInt_mod a b⟩
    by_cases ha : a = Int64.minValue
    · exact Int64.toInt_div_of_ne_right a b fun hb => hne ⟨ha, hb⟩
    · exact Int64.toInt_div_of_ne_left a b ha

theorem roundedUp_iff : roundedUp r b = true ↔ r.toInt ≠ 0 ∧ (r.toInt < 0 ↔ ¬ b.toInt < 0) := by
  by_cases hr : r.toInt < 0 <;> by_cases hb : b.toInt < 0 <;>
    simp [roundedUp, eq_zero_iff_toInt, lt_zero_iff_toInt, hr, hb]

/-- Rounding toward zero rounds up exactly where a remainder is left whose sign is not the divisor's. -/
theorem fdiv_eq_ite_tdiv {x y : Int} (hy : y ≠ 0) :
    x.fdiv y = if x.tmod y ≠ 0 ∧ (x.tmod y < 0 ↔ ¬ y < 0) then x.tdiv y - 1 else x.tdiv y := by
  -- the remainder of truncation has the sign of the dividend
  have hpos : 0 ≤ x → 0 ≤ x.tmod y := Int.tmod_nonneg y
  have hneg : x < 0 → x.tmod y ≤ 0 := by
    intro hx
    have h := Int.tmod_nonneg y (Int.neg_nonneg_of_nonpos (Int.le_of_lt hx))
    rw [Int.neg_tmod] at h
    omega
  rw [Int.fdiv_eq_tdiv]
  simp only [Int.dvd_iff_tmod_eq_zero]
  rcases Int.lt_or_gt_of_ne hy with h | h
  · simp only [Int.sign_eq_neg_one_of_neg h]
    split_ifs <;> omega
  · simp only [Int.sign_eq_one_of_pos h]
    split_ifs <;> omega

theorem fmod_eq_ite_tmod {x y : Int} (hy : y ≠ 0) :
    x.fmod y = if x.tmod y ≠ 0 ∧ (x.tmod y < 0 ↔ ¬ y < 0) then x.tmod y + y else x.tmod y := by
  rw [Int.fmod_def, fdiv_eq_ite_tdiv hy]
  have h := Int.tmod_def x y
  split
  · rw [Int.mul_sub]
    omega
  · omega

/-- A divisor that leaves a remainder is not 1 or -1, so it at least halves the dividend. -/
theorem natAbs_tdiv_le_half {x y : Int} (hr : x.tmod y ≠ 0) : (x.tdiv y).natAbs ≤ x.natAbs / 2 := by
  have hrem : x.natAbs % y.natAbs ≠ 0 := by
    have h := Int.natAbs_tmod x y
    omega
  have hone : y.natAbs ≠ 1 := by
    intro h
    simp [h, Nat.mod_one] at hrem
  rw [Int.natAbs_tdiv]
  show x.natAbs / y.natAbs ≤ x.natAbs / 2
  rcases Nat.eq_zero_or_pos y.natAbs with hzero | hpos
  · simp [hzero]
  · exact Nat.div_le_div_left (by omega) (by decide)

/-- The corrections stay within 64 bits: a quotient that was rounded up is far from the smallest number,
and the remainder and the divisor that are added have different signs. -/
theorem toInt_corrected (h : truncate? a b = some (q, r)) (hr : roundedUp r b = true) :
    (q - 1).toInt = q.toInt - 1 ∧ (r + b).toInt = r.toInt + b.toInt := by
  obtain ⟨hq, hrem⟩ := toInt_of_truncate? h
  obtain ⟨hne, hsign⟩ := roundedUp_iff.1 hr
  have ha := toInt_bounds a
  have hb := toInt_bounds b
  have hbounds := toInt_bounds r
  have hone : (1 : Int64).toInt = 1 := rfl
  constructor
  · have hhalf := natAbs_tdiv_le_half (hrem ▸ hne)
    rw [← hq] at hhalf
    have hfits : Fits (q.toInt - (1 : Int64).toInt) := by
      unfold Fits
      omega
    rw [toInt_sub_of_fits hfits, hone]
  · refine toInt_add_of_fits ?_
    unfold Fits
    omega

theorem floorDiv_eq_correctedDiv (a b : Int64) : floorDiv a b = correctedDiv a b := by
  unfold floorDiv correctedDiv
  split
  · rfl
  next hb =>
    cases h : truncate? a b with
    | none =>
      obtain ⟨rfl, rfl⟩ : a = Int64.minValue ∧ b = -1 := by
        simpa [truncate?] using h
      rfl
    | some qr =>
      obtain ⟨q, r⟩ := qr
      obtain ⟨hq, hr⟩ := toInt_of_truncate? h
      refine fit_eq_ok_iff.2 ?_
      rw [fdiv_eq_ite_tdiv (Interval.toInt_ne_zero hb), ← hq, ← hr]
      simp only [← roundedUp_iff]
      split
      next hup => rw [(toInt_corrected h hup).1]
      · rfl

theorem floorMod_eq_correctedMod (a b : Int64) : floorMod a b = correctedMod a b := by
  unfold floorMod correctedMod
  split
  · rfl
  next hb =>
    cases h : truncate? a b with
    | none =>
      obtain ⟨rfl, rfl⟩ : a = Int64.minValue ∧ b = -1 := by
        simpa [truncate?] using h
      rfl
    | some qr =>
      obtain ⟨q, r⟩ := qr
      obtain ⟨-, hr⟩ := toInt_of_truncate? h
      refine fit_eq_ok_iff.2 ?_
      simp only [Option.map_some, Option.getD_some]
      rw [fmod_eq_ite_tmod (Interval.toInt_ne_zero hb), ← hr]
      simp only [← roundedUp_iff]
      split
      next hup => rw [(toInt_corrected h hup).2]
      · rfl

/-! ## Main statement -/

theorem floorMod_sign (h : floorMod a b = .ok v) :
    v = 0 ∨ (v < 0 ↔ b < 0) ∧ v.toInt.natAbs < b.toInt.natAbs := by
  unfold floorMod at h
  split at h
  · cases h
  next hb =>
    have hv := toInt_of_fit h
    have hbounds := Interval.fmod_bounds a.toInt b.toInt
    have hne := Interval.toInt_ne_zero hb
    rw [eq_zero_iff_toInt, lt_zero_iff_toInt, lt_zero_iff_toInt]
    omega

/-- An operator answers its mathematical result exactly when there is one and 64 bits hold it, and tells
apart why there is no answer. Quotients and remainders can be got from truncating division without
leaving 64 bits on the way; a remainder has the sign of the divisor and is smaller. -/
theorem ArithOp.apply_exact (op : ArithOp) (a b : Int64) :
    (∀ v, op.apply a b = .ok v ↔ op.result? a.toInt b.toInt = some v.toInt) ∧
    (op.apply a b = .error .divisionByZero ↔ (op = .div ∨ op = .mod) ∧ b = 0) ∧
    (op.apply a b = .error .negativeExponent ↔ op = .pow ∧ b < 0) ∧
    (op.apply a b = .error .overflow ↔ ∃ x, op.result? a.toInt b.toInt = some x ∧ ¬ Fits x) ∧
    (div.apply a b = correctedDiv a b ∧ mod.apply a b = correctedMod a b ∧
      ∀ q r, truncate? a b = some (q, r) → roundedUp r b = true →
        (q - 1).toInt = q.toInt - 1 ∧ (r + b).toInt = r.toInt + b.toInt) ∧
    (∀ v, mod.apply a b = .ok v → v = 0 ∨ (v < 0 ↔ b < 0) ∧ v.toInt.natAbs < b.toInt.natAbs) ∧
    mod.apply a (-1) = .ok 0 := by
  refine ⟨fun v => apply_eq_ok_iff, ?_, ?_, ?_,
    ⟨floorDiv_eq_correctedDiv a b, floorMod_eq_correctedMod a b, fun q r h hr => toInt_corrected h hr⟩,
    fun v h => floorMod_sign h, ?_⟩
  · rw [apply_eq_error_iff, result?_eq_none_iff]
    cases op <;> simp [refusal]
  · rw [apply_eq_error_iff, result?_eq_none_iff]
    cases op <;> simp [refusal]
  · rw [apply_eq_error_iff]
    cases op <;> simp [refusal]
  · refine fit_eq_ok_iff.2 ?_
    show a.toInt.fmod (-1) = 0
    have h := (Interval.fmod_bounds a.toInt (-1)).2 (by decide)
    omega

-- The quotient that is out of range, and a power that just fits.
example : ArithOp.div.apply Int64.minValue (-1) = .error .overflow ∧
    ArithOp.pow.apply (-2) 63 = .ok Int64.minValue := by decide

end Pathwise
