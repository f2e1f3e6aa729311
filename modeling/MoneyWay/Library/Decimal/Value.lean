import Mathlib.Algebra.Order.Field.Power
import Mathlib.Data.Int.Log
import Mathlib.Data.Rat.Floor
import MoneyWay.Library.Decimal
import MoneyWay.Library.NearestEven

/-!
# The values of decimal numbers

What the operations of a context do to the rational values: each gives the exact result,
rounded to the precision.

## Main definitions

- `Decimal.value` — the rational number
- `Rounding.toInt` — a rounding to whole numbers
- `Context.round` — the rounding to the precision of a context

## Main results

- `value_fix`, `value_mul`, `value_div`, `value_add`, `value_sub`, `value_quantize`
- `fix_isOk`, … — no signal, as long as the result is in range
-/

set_option autoImplicit false

open NearestEven

namespace Decimal

/-! ## Values -/

def sign (d : Decimal) : ℚ := if d.negative then -1 else 1

/-- The number that is written. -/
def value (d : Decimal) : ℚ := d.sign * (d.coefficient * 10 ^ d.exponent)

variable {a b d q : Decimal} {e : ℤ}

/-- The number has at most `n` decimal places. -/
def Places (n : ℕ) (d : Decimal) : Prop := ∃ k : ℤ, d.value = k * 10 ^ (-n : ℤ)

theorem abs_sign (d : Decimal) : |d.sign| = 1 := by
  unfold sign
  split <;> simp

theorem abs_value (d : Decimal) : |d.value| = d.coefficient * 10 ^ d.exponent := by
  have hnonneg : (0 : ℚ) ≤ d.coefficient * 10 ^ d.exponent := by positivity
  rw [value, abs_mul, abs_sign, one_mul, abs_of_nonneg hnonneg]

theorem value_eq_zero_iff : d.value = 0 ↔ d.coefficient = 0 := by
  have hpow : (10 : ℚ) ^ d.exponent ≠ 0 := by positivity
  rw [← abs_eq_zero, abs_value, mul_eq_zero, or_iff_left hpow, Nat.cast_eq_zero]

theorem value_scaled (h : e ≤ d.exponent) : d.value = d.scaled e * 10 ^ e := by
  have hpow : (10 : ℚ) ^ d.exponent = 10 ^ (d.exponent - e).toNat * 10 ^ e := by
    rw [← zpow_natCast, ← zpow_add₀ (by norm_num)]
    congr 1
    omega
  unfold value sign scaled
  rw [hpow]
  split <;> push_cast <;> ring

theorem le_iff_value : a ≤ b ↔ a.value ≤ b.value := by
  have hpow : (0 : ℚ) < 10 ^ min a.exponent b.exponent := by positivity
  rw [value_scaled (min_le_left a.exponent b.exponent),
    value_scaled (min_le_right a.exponent b.exponent), mul_le_mul_iff_left₀ hpow, Int.cast_le]
  rfl

theorem lt_iff_value : a < b ↔ a.value < b.value := by
  have hpow : (0 : ℚ) < 10 ^ min a.exponent b.exponent := by positivity
  rw [value_scaled (min_le_left a.exponent b.exponent),
    value_scaled (min_le_right a.exponent b.exponent), mul_lt_mul_iff_left₀ hpow, Int.cast_lt]
  rfl

theorem sameValue_iff_value : a.SameValue b ↔ a.value = b.value := by
  have hpow : (10 : ℚ) ^ min a.exponent b.exponent ≠ 0 := by positivity
  rw [value_scaled (min_le_left a.exponent b.exponent),
    value_scaled (min_le_right a.exponent b.exponent), mul_left_inj' hpow, Int.cast_inj]
  rfl

@[simp] theorem value_ofUnits (n e : ℤ) : (ofUnits n e).value = n * 10 ^ e := by
  have hscaled : (ofUnits n e).scaled e = n := by
    simp only [scaled, ofUnits, sub_self, Int.toNat_zero, pow_zero, mul_one, decide_eq_true_eq]
    split <;> omega
  rw [value_scaled (e := e) (d := ofUnits n e) (le_refl e), hscaled]

@[simp] theorem value_ofNat (n : ℕ) : (ofNat n).value = n := by
  simp [value, sign, ofNat]

theorem ten_zpow_lt_iff {m n : ℤ} : (10 : ℚ) ^ m < 10 ^ n ↔ m < n :=
  zpow_lt_zpow_iff_right₀ (by norm_num)

/-- The exponent of the first digit is the whole part of the logarithm. -/
theorem log_abs_value (h : d.coefficient ≠ 0) : Int.log 10 |d.value| = d.adjusted := by
  have hpos : (0 : ℚ) < |d.value| := abs_pos.mpr (value_eq_zero_iff.not.mpr h)
  have hpow : (0 : ℚ) < 10 ^ d.exponent := by positivity
  have hbounds {k : ℤ} : |d.value| < 10 ^ k ↔ d.adjusted < k := by
    have hlow : ((10 ^ Nat.log 10 d.coefficient : ℕ) : ℚ) ≤ d.coefficient := by
      exact_mod_cast Nat.pow_log_le_self 10 h
    have hhigh : (d.coefficient : ℚ) < ((10 ^ (Nat.log 10 d.coefficient + 1) : ℕ) : ℚ) := by
      exact_mod_cast Nat.lt_pow_succ_log_self (by norm_num) _
    push_cast at hlow hhigh
    rw [← zpow_natCast] at hlow hhigh
    have hlow := mul_le_mul_of_nonneg_right hlow hpow.le
    have hhigh := mul_lt_mul_of_pos_right hhigh hpow
    rw [← zpow_add₀ (by norm_num)] at hlow hhigh
    rw [← abs_value] at hlow hhigh
    have hadjusted : d.adjusted = Nat.log 10 d.coefficient + d.exponent := by
      unfold adjusted digits
      push_cast
      ring
    rw [hadjusted]
    constructor
    · intro hk
      exact ten_zpow_lt_iff.mp (hlow.trans_lt hk)
    · intro hk
      refine hhigh.trans_le (zpow_le_zpow_right₀ (by norm_num) ?_)
      push_cast
      omega
  have hlog {k : ℤ} : Int.log 10 |d.value| < k ↔ d.adjusted < k :=
    (Int.lt_zpow_iff_log_lt (by norm_num) hpos).symm.trans (by exact_mod_cast hbounds)
  have h1 := hlog (k := d.adjusted + 1)
  have h2 := hlog (k := Int.log 10 |d.value| + 1)
  omega

/-! ## Rounding to whole numbers -/

namespace Rounding

/-- The whole number a rounding leaves of a number. -/
def toInt (r : Rounding) (x : ℚ) : ℤ :=
  match r with
  | .halfEven => nearestEven x
  | .down => if 0 ≤ x then ⌊x⌋ else -⌊-x⌋

theorem toInt_neg (r : Rounding) (x : ℚ) : r.toInt (-x) = -r.toInt x := by
  cases r with
  | halfEven => exact nearestEven_neg x
  | down =>
    rcases lt_trichotomy x 0 with hx | rfl | hx
    · simp [toInt, hx.le, hx.not_ge]
    · simp [toInt]
    · simp [toInt, hx.le, hx.not_ge]

theorem toInt_intCast (r : Rounding) (n : ℤ) : r.toInt n = n := by
  cases r with
  | halfEven => exact nearestEven_intCast n
  | down =>
    unfold toInt
    split_ifs
    · exact Int.floor_intCast n
    · rw [← Int.cast_neg, Int.floor_intCast, neg_neg]

theorem toInt_le_of_le (r : Rounding) {x : ℚ} {n : ℤ} (hx : 0 ≤ x) (h : x ≤ n) : r.toInt x ≤ n := by
  cases r with
  | halfEven => exact nearestEven_le_of_le h
  | down =>
    rw [toInt, if_pos hx]
    exact_mod_cast (Int.floor_le x).trans h

theorem toInt_down {x : ℚ} (h : 0 ≤ x) : toInt .down x = ⌊x⌋ := if_pos h

end Rounding

theorem roundShift_eq (r : Rounding) (c k : ℕ) :
    (roundShift r c k : ℤ) = r.toInt (c / 10 ^ k) := by
  have hpow : 0 < 10 ^ k := by positivity
  have hpowQ : (0 : ℚ) < 10 ^ k := by positivity
  have hfloor : ⌊(c / 10 ^ k : ℚ)⌋ = ((c / 10 ^ k : ℕ) : ℤ) := by
    have := Rat.floor_intCast_div_natCast c (10 ^ k)
    push_cast at this ⊢
    exact this
  cases r with
  | down => rw [Rounding.toInt_down (by positivity), hfloor, roundShift]
  | halfEven =>
    have hmod : (c : ℚ) / 10 ^ k - ((c / 10 ^ k : ℕ) : ℤ) = ((c % 10 ^ k : ℕ) : ℚ) / 10 ^ k := by
      have hdiv : ((10 ^ k * (c / 10 ^ k) + c % 10 ^ k : ℕ) : ℚ) = c :=
        congrArg _ (Nat.div_add_mod c (10 ^ k))
      push_cast at hdiv
      rw [eq_div_iff hpowQ.ne', sub_mul, div_mul_cancel₀ _ hpowQ.ne', Int.cast_natCast]
      linarith
    have hlow : ((c % 10 ^ k : ℕ) : ℚ) / 10 ^ k < 1 / 2 ↔ 2 * (c % 10 ^ k) < 10 ^ k := by
      rw [div_lt_div_iff₀ hpowQ (by norm_num), one_mul, mul_comm]
      exact_mod_cast Iff.rfl
    have hhigh : 1 / 2 < ((c % 10 ^ k : ℕ) : ℚ) / 10 ^ k ↔ 10 ^ k < 2 * (c % 10 ^ k) := by
      rw [div_lt_div_iff₀ (by norm_num) hpowQ, one_mul, mul_comm _ (2 : ℚ)]
      exact_mod_cast Iff.rfl
    show _ = nearestEven _
    unfold nearestEven
    rw [hfloor, hmod]
    simp only [hlow, hhigh, roundShift]
    split_ifs <;> push_cast <;> omega

/-! ## Rounding to a context -/

theorem value_eq_sign_mul (d : Decimal) : d.value = d.sign * |d.value| := by
  rw [abs_value, value]

theorem sign_eq (d : Decimal) : d.sign = 1 ∨ d.sign = -1 := by
  unfold sign
  split
  · exact .inr rfl
  · exact .inl rfl

theorem coefficient_lt (d : Decimal) : d.coefficient < 10 ^ digits d.coefficient :=
  Nat.lt_pow_succ_log_self (by norm_num) _

namespace Context

variable {ctx : Context} {r : Rounding} {x y : ℚ} {n k : ℤ}

/-- There is a digit, and the exponents have a range. -/
structure Proper (ctx : Context) : Prop where
  prec : 1 ≤ ctx.prec
  range : ctx.emin < ctx.emax

theorem proper_default : default.Proper := ⟨by decide, by decide⟩

/-- The exponent of the last digit that is kept. -/
def ulp (ctx : Context) (x : ℚ) : ℤ := max (Int.log 10 |x| + 1 - ctx.prec) ctx.etiny

/-- The nearest number with the digits of the context, the even one of two. -/
def round (ctx : Context) (x : ℚ) : ℚ := nearestEven (x / 10 ^ ctx.ulp x) * 10 ^ ctx.ulp x

@[simp] theorem round_zero : ctx.round 0 = 0 := by simp [round]

theorem round_neg (x : ℚ) : ctx.round (-x) = -ctx.round x := by
  have hulp : ctx.ulp (-x) = ctx.ulp x := by rw [ulp, ulp, abs_neg]
  rw [round, round, hulp, neg_div, nearestEven_neg]
  push_cast
  ring

theorem ulp_le (hx : x ≠ 0) (h : |x| < 10 ^ k) (hk : k - ctx.prec ≤ e) (hetiny : ctx.etiny ≤ e) :
    ctx.ulp x ≤ e := by
  have hlog : Int.log 10 |x| < k := by
    rw [← Int.lt_zpow_iff_log_lt (by norm_num) (abs_pos.mpr hx)]
    exact_mod_cast h
  unfold ulp
  omega

theorem log_eq (hx : 10 ^ k ≤ x) (hx' : x < 10 ^ (k + 1)) : Int.log 10 x = k := by
  have hpos : 0 < x := lt_of_lt_of_le (by positivity) hx
  have hlow : k ≤ Int.log 10 x := by
    rw [← Int.zpow_le_iff_le_log (by norm_num) hpos]
    exact_mod_cast hx
  have hhigh : Int.log 10 x < k + 1 := by
    rw [← Int.lt_zpow_iff_log_lt (by norm_num) hpos]
    exact_mod_cast hx'
  omega

theorem ulp_eq (hx : 10 ^ k ≤ x) (hx' : x < 10 ^ (k + 1)) (hk : ctx.etiny ≤ k + 1 - ctx.prec) :
    ctx.ulp x = k + 1 - ctx.prec := by
  have hpos : 0 < x := lt_of_lt_of_le (by positivity) hx
  rw [ulp, abs_of_pos hpos, log_eq hx hx', max_eq_left hk]

/-- A number with few digits is a whole number of units. -/
theorem exists_units (h : ctx.ulp x ≤ e) (n : ℤ) :
    ∃ m : ℤ, (n * 10 ^ e : ℚ) = m * 10 ^ ctx.ulp x := by
  refine ⟨n * 10 ^ (e - ctx.ulp x).toNat, ?_⟩
  have hpow : (10 : ℚ) ^ e = 10 ^ (e - ctx.ulp x).toNat * 10 ^ ctx.ulp x := by
    rw [← zpow_natCast, ← zpow_add₀ (by norm_num)]
    congr 1
    omega
  rw [hpow]
  push_cast
  ring

/-- Rounding does not cross a number that the context has. -/
theorem round_le_of_le (h : x ≤ n * 10 ^ e) (he : ctx.ulp x ≤ e) : ctx.round x ≤ n * 10 ^ e := by
  have hpow : (0 : ℚ) < 10 ^ ctx.ulp x := by positivity
  obtain ⟨m, hm⟩ := exists_units he n
  rw [hm] at h ⊢
  refine mul_le_mul_of_nonneg_right ?_ hpow.le
  exact_mod_cast nearestEven_le_of_le ((div_le_iff₀ hpow).mpr h)

theorem le_round_of_le (h : n * 10 ^ e ≤ x) (he : ctx.ulp x ≤ e) : n * 10 ^ e ≤ ctx.round x := by
  have hpow : (0 : ℚ) < 10 ^ ctx.ulp x := by positivity
  obtain ⟨m, hm⟩ := exists_units he n
  rw [hm] at h ⊢
  refine mul_le_mul_of_nonneg_right ?_ hpow.le
  exact_mod_cast le_nearestEven_of_le ((le_div_iff₀ hpow).mpr h)

theorem round_nonneg (h : 0 ≤ x) : 0 ≤ ctx.round x := by
  have hpow : (0 : ℚ) < 10 ^ ctx.ulp x := by positivity
  refine mul_nonneg ?_ hpow.le
  exact_mod_cast le_nearestEven_of_le (n := 0) (by exact_mod_cast div_nonneg h hpow.le)

/-- The same for a bound with few digits. -/
theorem round_le (hx : 0 ≤ x) (h : x ≤ n * 10 ^ e) (hk : (n * 10 ^ e : ℚ) < 10 ^ k)
    (he : k - ctx.prec ≤ e) (hetiny : ctx.etiny ≤ e) : ctx.round x ≤ n * 10 ^ e := by
  by_cases hzero : x = 0
  · rwa [hzero, round_zero, ← hzero]
  · refine round_le_of_le h (ulp_le hzero ?_ he hetiny)
    rw [abs_of_nonneg hx]
    exact h.trans_lt hk

/-- A number of many digits does not lose one. -/
theorem zpow_le_round (hctx : ctx.Proper) (h : 10 ^ k ≤ x) (hk : ctx.etiny ≤ k) :
    10 ^ k ≤ ctx.round x := by
  have hprec := hctx.prec
  have hpos : 0 < x := lt_of_lt_of_le (by positivity) h
  have hlog : k ≤ Int.log 10 x := by
    rw [← Int.zpow_le_iff_le_log (by norm_num) hpos]
    exact_mod_cast h
  have hself : ((1 : ℤ) * 10 ^ Int.log 10 x : ℚ) ≤ x := by
    rw [Int.cast_one, one_mul]
    exact_mod_cast Int.zpow_log_le_self (b := 10) (by norm_num) hpos
  have hulp : ctx.ulp x ≤ Int.log 10 x := by
    rw [ulp, abs_of_pos hpos]
    omega
  have hround := le_round_of_le hself hulp
  rw [Int.cast_one, one_mul] at hround
  exact (zpow_le_zpow_right₀ (by norm_num) hlog).trans hround

/-- A number that the context has is not rounded. -/
theorem round_eq_self (h : x = n * 10 ^ e) (he : ctx.ulp x ≤ e) : ctx.round x = x := by
  rw [h] at he ⊢
  exact le_antisymm (round_le_of_le le_rfl he) (le_round_of_le le_rfl he)

theorem round_eq (h : x = n * 10 ^ e) (hk : |x| < 10 ^ k) (he : k - ctx.prec ≤ e)
    (hetiny : ctx.etiny ≤ e) : ctx.round x = x := by
  by_cases hzero : x = 0
  · rw [hzero, round_zero]
  · exact round_eq_self h (ulp_le hzero hk he hetiny)

theorem abs_sub_round_le (x : ℚ) : |x - ctx.round x| ≤ 10 ^ ctx.ulp x / 2 := by
  have hpow : (0 : ℚ) < 10 ^ ctx.ulp x := by positivity
  have hsub : x - ctx.round x =
      (x / 10 ^ ctx.ulp x - nearestEven (x / 10 ^ ctx.ulp x)) * 10 ^ ctx.ulp x := by
    rw [round, sub_mul, div_mul_cancel₀ _ hpow.ne']
  rw [hsub, abs_mul, abs_of_pos hpow]
  have hle := mul_le_mul_of_nonneg_right (abs_sub_nearestEven_le (x / 10 ^ ctx.ulp x)) hpow.le
  linarith

/-- The relative error of a number that is not too small. -/
theorem abs_sub_round_le_mul (hx : 10 ^ ctx.emin ≤ |x|) :
    |x - ctx.round x| ≤ |x| * 10 ^ (1 - ctx.prec : ℤ) / 2 := by
  have hpos : 0 < |x| := lt_of_lt_of_le (by positivity) hx
  have hlog : ctx.emin ≤ Int.log 10 |x| := by
    rw [← Int.zpow_le_iff_le_log (by norm_num) hpos]
    exact_mod_cast hx
  have hulp : ctx.ulp x = Int.log 10 |x| + (1 - ctx.prec) := by
    unfold ulp etiny
    omega
  have hle : |x - ctx.round x| ≤ 10 ^ ctx.ulp x / 2 := abs_sub_round_le x
  rw [hulp, zpow_add₀ (by norm_num)] at hle
  have hself : (10 : ℚ) ^ Int.log 10 |x| ≤ |x| := by
    exact_mod_cast Int.zpow_log_le_self (by norm_num) hpos
  refine hle.trans ?_
  gcongr

theorem round_sign_mul (d : Decimal) (x : ℚ) : ctx.round (d.sign * x) = d.sign * ctx.round x := by
  rcases d.sign_eq with h | h
  · rw [h, one_mul, one_mul]
  · rw [h, neg_one_mul, neg_one_mul, round_neg]

theorem ulp_value (h : d.coefficient ≠ 0) :
    ctx.ulp d.value = max (digits d.coefficient + d.exponent - ctx.prec) ctx.etiny := by
  rw [ulp, log_abs_value h, adjusted]
  congr 1
  ring

/-- The coefficient that is left, with the digits that are dropped. -/
theorem roundShift_fix (he : d.exponent < ctx.ulp d.value) :
    ((roundShift .halfEven d.coefficient (ctx.ulp d.value - d.exponent).toNat : ℕ) : ℚ) *
      10 ^ ctx.ulp d.value = ctx.round |d.value| := by
  have hulp : ctx.ulp |d.value| = ctx.ulp d.value := by rw [ulp, ulp, abs_abs]
  have hdiv : |d.value| / 10 ^ ctx.ulp d.value =
      d.coefficient / 10 ^ (ctx.ulp d.value - d.exponent).toNat := by
    have hpow : (10 : ℚ) ^ ctx.ulp d.value =
        10 ^ (ctx.ulp d.value - d.exponent).toNat * 10 ^ d.exponent := by
      rw [← zpow_natCast, ← zpow_add₀ (by norm_num)]
      congr 1
      omega
    rw [abs_value, hpow, mul_div_mul_right _ _ (by positivity)]
  have hshift := roundShift_eq .halfEven d.coefficient (ctx.ulp d.value - d.exponent).toNat
  rw [← hdiv] at hshift
  rw [round, hulp]
  congr 1
  exact_mod_cast congrArg (Int.cast : ℤ → ℚ) hshift

theorem roundShift_le (hd : d.coefficient ≠ 0) (he : d.exponent < ctx.ulp d.value) :
    roundShift .halfEven d.coefficient (ctx.ulp d.value - d.exponent).toNat ≤ 10 ^ ctx.prec := by
  have hle : d.coefficient ≤ 10 ^ ctx.prec * 10 ^ (ctx.ulp d.value - d.exponent).toNat := by
    refine (coefficient_lt d).le.trans ?_
    rw [← pow_add]
    refine Nat.pow_le_pow_right (by norm_num) ?_
    rw [ulp_value hd] at he ⊢
    omega
  have hpow : (0 : ℚ) < 10 ^ (ctx.ulp d.value - d.exponent).toNat := by positivity
  have hdiv : (d.coefficient : ℚ) / 10 ^ (ctx.ulp d.value - d.exponent).toNat ≤
      ((10 ^ ctx.prec : ℕ) : ℤ) := by
    rw [div_le_iff₀ hpow]
    exact_mod_cast hle
  have hround := nearestEven_le_of_le hdiv
  have hshift : _ = nearestEven _ :=
    roundShift_eq .halfEven d.coefficient (ctx.ulp d.value - d.exponent).toNat
  rw [← hshift] at hround
  exact_mod_cast hround

theorem value_fix (hctx : ctx.Proper) (h : ctx.fix d = .ok q) : q.value = ctx.round d.value := by
  by_cases hd : d.coefficient = 0
  · rw [fix, if_pos hd] at h
    cases h
    rw [value_eq_zero_iff.mpr hd, round_zero]
    exact value_eq_zero_iff.mpr hd
  rw [fix, if_neg hd] at h
  dsimp only at h
  rw [← ulp_value hd] at h
  split at h
  · cases h
  split at h
  · next he =>
    rw [value_eq_sign_mul d, round_sign_mul, ← roundShift_fix he]
    have hle := roundShift_le hd he
    generalize roundShift _ _ _ = c at h hle ⊢
    split at h
    · next hcarry =>
      split at h
      · cases h
      -- all digits are nines, and rounding up carries into the next
      have hc : c = 10 ^ ctx.prec := by
        refine le_antisymm hle ?_
        have hlog : ctx.prec ≤ Nat.log 10 c := Nat.lt_succ_iff.mp hcarry
        refine (Nat.pow_le_pow_right (by norm_num) hlog).trans (Nat.pow_log_le_self 10 ?_)
        rintro rfl
        simp at hlog
        exact absurd hctx.prec (by omega)
      obtain ⟨m, hm⟩ : ∃ m, ctx.prec = m + 1 := ⟨ctx.prec - 1, by have := hctx.prec; omega⟩
      have hdiv : c / 10 = 10 ^ m := by
        rw [hc, hm, pow_succ, Nat.mul_div_cancel _ (by norm_num)]
      cases h
      rw [hdiv, hc, hm, value, zpow_add_one₀ (by norm_num)]
      simp only [sign]
      push_cast
      ring
    · cases h
      rfl
  · next he =>
    cases h
    refine (round_eq_self (n := (if d.negative then -1 else 1) * d.coefficient) ?_
      (not_lt.mp he)).symm
    rw [value, sign]
    split <;> push_cast <;> ring

theorem fix_isOk (hctx : ctx.Proper) (h : |d.value| < 10 ^ ctx.emax) : ∃ q, ctx.fix d = .ok q := by
  have hrange := hctx.range
  by_cases hd : d.coefficient = 0
  · rw [fix, if_pos hd]
    exact ⟨_, rfl⟩
  have hlog : d.adjusted < ctx.emax := by
    rw [← log_abs_value hd, ← Int.lt_zpow_iff_log_lt (by norm_num)
      (abs_pos.mpr (value_eq_zero_iff.not.mpr hd))]
    exact_mod_cast h
  unfold adjusted at hlog
  have hetop : ¬ ctx.etop < digits d.coefficient + d.exponent - ctx.prec := by
    unfold etop
    omega
  have hetop' : ¬ ctx.etop <
      max (digits d.coefficient + d.exponent - ctx.prec) ctx.etiny + 1 := by
    unfold etop etiny
    omega
  rw [fix, if_neg hd, if_neg hetop]
  dsimp only
  split
  · split <;> exact ⟨_, rfl⟩
  · exact ⟨_, rfl⟩

/-! ## Operations -/

/-- What an operation may give of an exact result: the same rounded number, and no signal for
what is in range. -/
structure Rounds (ctx : Context) (o : Except Signal Decimal) (x : ℚ) : Prop where
  value : ∀ q, o = .ok q → q.value = ctx.round x
  isOk : |x| < 10 ^ ctx.emax → ∃ q, o = .ok q

theorem Rounds.exists_ok {o : Except Signal Decimal} (h : ctx.Rounds o x)
    (hx : |x| < 10 ^ ctx.emax) : ∃ q, o = .ok q ∧ q.value = ctx.round x := by
  obtain ⟨q, hq⟩ := h.isOk hx
  exact ⟨q, hq, h.value q hq⟩

theorem rounds_fix (hctx : ctx.Proper) (d : Decimal) : ctx.Rounds (ctx.fix d) d.value :=
  ⟨fun _ h => value_fix hctx h, fix_isOk hctx⟩

theorem sign_bne (a b : Decimal) (c : ℕ) (e : ℤ) :
    (⟨a.negative != b.negative, c, e⟩ : Decimal).sign = a.sign * b.sign := by
  unfold sign
  cases a.negative <;> cases b.negative <;> simp

theorem rounds_mul (hctx : ctx.Proper) (a b : Decimal) :
    ctx.Rounds (ctx.mul a b) (a.value * b.value) := by
  have hvalue : (⟨a.negative != b.negative, a.coefficient * b.coefficient,
      a.exponent + b.exponent⟩ : Decimal).value = a.value * b.value := by
    rw [value, sign_bne, value, value, zpow_add₀ (by norm_num)]
    push_cast
    ring
  rw [← hvalue]
  exact rounds_fix hctx _

theorem rounds_add (hctx : ctx.Proper) (a b : Decimal) :
    ctx.Rounds (ctx.add a b) (a.value + b.value) := by
  have hvalue : a.value + b.value =
      ((a.scaled (min a.exponent b.exponent) + b.scaled (min a.exponent b.exponent) : ℤ) : ℚ) *
        10 ^ min a.exponent b.exponent := by
    rw [value_scaled (min_le_left a.exponent b.exponent),
      value_scaled (min_le_right a.exponent b.exponent)]
    push_cast
    ring
  unfold add
  dsimp only
  rw [hvalue]
  generalize a.scaled _ + b.scaled _ = n
  by_cases hn : n = 0
  · have hzero (s : Bool) (e : ℤ) : (⟨s, n.natAbs, e⟩ : Decimal).value = n * 10 ^ e := by
      rw [value_eq_zero_iff.mpr (by simp [hn]), hn]
      simp
    rw [← hzero]
    exact rounds_fix hctx _
  · rw [if_neg hn, ← value_ofUnits]
    exact rounds_fix hctx _

theorem rounds_sub (hctx : ctx.Proper) (a b : Decimal) :
    ctx.Rounds (ctx.sub a b) (a.value - b.value) := by
  have hneg : ({ b with negative := !b.negative } : Decimal).value = -b.value := by
    unfold value sign
    cases b.negative <;> simp
  rw [sub_eq_add_neg, ← hneg]
  exact rounds_add hctx _ _

theorem log_mul_zpow (hx : 0 < x) (e : ℤ) : Int.log 10 (x * 10 ^ e) = Int.log 10 x + e := by
  have hpow : (0 : ℚ) < 10 ^ e := by positivity
  have hiff (k : ℤ) : k ≤ Int.log 10 (x * 10 ^ e) ↔ k ≤ Int.log 10 x + e := by
    rw [← Int.zpow_le_iff_le_log (by norm_num) (mul_pos hx hpow), ← sub_le_iff_le_add,
      ← Int.zpow_le_iff_le_log (by norm_num) hx, Nat.cast_ofNat, zpow_sub₀ (by norm_num),
      div_le_iff₀ hpow]
  exact le_antisymm ((hiff _).mp le_rfl) ((hiff _).mpr le_rfl)

section Sticky

variable {t : ℕ} (hx : (5 * t : ℚ) < x) (hx' : x < 5 * (t + 1)) (hprec : 10 ^ ctx.prec ≤ 5 * t)

include hx hx' hprec

/-- Powers of ten are multiples of five. -/
theorem le_log_iff_of_between (k : ℕ) :
    (k : ℤ) ≤ Int.log 10 x ↔ 10 ^ k ≤ 5 * t := by
  have hpos : 0 < x := lt_of_le_of_lt (by positivity) hx
  rw [← Int.zpow_le_iff_le_log (by norm_num) hpos, Nat.cast_ofNat, zpow_natCast]
  constructor
  · intro hle
    match k with
    | 0 => exact (Nat.one_le_pow _ _ (by norm_num)).trans hprec
    | k + 1 =>
      have hlt : (10 ^ (k + 1) : ℚ) < 5 * (t + 1) := hle.trans_lt hx'
      have hlt : 10 ^ (k + 1) < 5 * (t + 1) := by exact_mod_cast hlt
      omega
  · intro hle
    have hle : (10 ^ k : ℚ) ≤ 5 * t := by exact_mod_cast hle
    exact hle.trans hx.le

theorem prec_le_log : (ctx.prec : ℤ) ≤ Int.log 10 x :=
  (le_log_iff_of_between hx hx' hprec _).mpr hprec

omit hprec in
/-- Nothing but the interval decides how its numbers are rounded. -/
theorem nearestEven_of_between (k : ℕ) (hy : (5 * t : ℚ) < y) (hy' : y < 5 * (t + 1)) :
    nearestEven (x / 10 ^ (k + 1)) = nearestEven (y / 10 ^ (k + 1)) := by
  have hpow : (0 : ℚ) < 10 ^ k := by positivity
  have hlow : ((t / 10 ^ k : ℕ) : ℚ) * 10 ^ k ≤ t := by exact_mod_cast Nat.div_mul_le_self t _
  have hhigh : (t : ℚ) + 1 ≤ ((t / 10 ^ k : ℕ) + 1) * 10 ^ k := by
    rw [mul_comm]
    exact_mod_cast Nat.lt_mul_div_succ t (Nat.pow_pos (by norm_num : 0 < 10))
  have hbetween (z : ℚ) (hz : 5 * t < z) (hz' : z < 5 * (t + 1)) :
      (((t / 10 ^ k : ℕ) : ℤ) : ℚ) < 2 * (z / 10 ^ (k + 1)) ∧
        2 * (z / 10 ^ (k + 1)) < ((t / 10 ^ k : ℕ) : ℤ) + 1 := by
    have htwo : 2 * (z / 10 ^ (k + 1)) = z / 5 / 10 ^ k := by
      rw [pow_succ]
      field_simp
      ring
    rw [htwo, Int.cast_natCast, lt_div_iff₀ hpow, div_lt_iff₀ hpow]
    constructor <;> linarith
  exact nearestEven_eq_of_between (hbetween x hx hx').1 (hbetween x hx hx').2
    (hbetween y hy hy').1 (hbetween y hy hy').2

theorem round_eq_of_between (hy : (5 * t : ℚ) < y) (hy' : y < 5 * (t + 1))
    (e : ℤ) : Int.log 10 x = Int.log 10 y ∧ ctx.round (x * 10 ^ e) = ctx.round (y * 10 ^ e) := by
  have hlog : Int.log 10 x = Int.log 10 y := by
    have hxlog := prec_le_log hx hx' hprec
    have hylog := prec_le_log hy hy' hprec
    have hiff (k : ℕ) := (le_log_iff_of_between hx hx' hprec k).trans
      (le_log_iff_of_between hy hy' hprec k).symm
    have h1 := hiff (Int.log 10 x).toNat
    have h2 := hiff (Int.log 10 y).toNat
    omega
  refine ⟨hlog, ?_⟩
  have hpos : 0 < x := lt_of_le_of_lt (by positivity) hx
  have hpos' : 0 < y := lt_of_le_of_lt (by positivity) hy
  have hpow : (0 : ℚ) < 10 ^ e := by positivity
  have hulp : ctx.ulp (y * 10 ^ e) = ctx.ulp (x * 10 ^ e) := by
    rw [ulp, ulp, abs_of_pos (mul_pos hpos hpow), abs_of_pos (mul_pos hpos' hpow),
      log_mul_zpow hpos, log_mul_zpow hpos', hlog]
  -- the last digit that is kept is before the point
  have hlast : e + 1 ≤ ctx.ulp (x * 10 ^ e) := by
    have hxlog := prec_le_log hx hx' hprec
    rw [ulp, abs_of_pos (mul_pos hpos hpow), log_mul_zpow hpos]
    omega
  obtain ⟨k, hk⟩ : ∃ k : ℕ, ctx.ulp (x * 10 ^ e) = e + (k + 1 : ℕ) :=
    ⟨(ctx.ulp (x * 10 ^ e) - e - 1).toNat, by omega⟩
  have hdiv (z : ℚ) : z * 10 ^ e / 10 ^ (e + (k + 1 : ℕ)) = z / 10 ^ (k + 1) := by
    rw [zpow_add₀ (by norm_num), zpow_natCast, mul_comm (10 ^ e), mul_div_mul_right _ _ hpow.ne']
  rw [round, round, hulp, hk, hdiv, hdiv, nearestEven_of_between hx hx' k hy hy']

end Sticky

theorem stripTo_value (ideal : ℤ) (fuel c : ℕ) (e : ℤ) :
    ((stripTo ideal fuel c e).1 : ℚ) * 10 ^ (stripTo ideal fuel c e).2 = c * 10 ^ e := by
  induction fuel generalizing c e with
  | zero => rfl
  | succ fuel ih =>
    rw [stripTo]
    split
    · next h =>
      rw [ih, zpow_add_one₀ (by norm_num)]
      have hc : ((c / 10 : ℕ) : ℚ) * 10 = c := by exact_mod_cast (by omega : c / 10 * 10 = c)
      rw [← hc]
      ring
    · rfl

/-- The dividend is scaled so that the quotient has one digit more than the precision. -/
theorem pow_prec_mul_le {c prec : ℕ} (hc : c ≠ 0) (c' : ℕ) (s : ℤ)
    (hs : s = digits c' - digits c + prec + 1) :
    10 ^ prec * (c' * 10 ^ (-s).toNat) ≤ c * 10 ^ s.toNat := by
  have hlow : 10 ^ Nat.log 10 c ≤ c := Nat.pow_log_le_self 10 hc
  have hhigh : c' ≤ 10 ^ digits c' := (Nat.lt_pow_succ_log_self (by norm_num) c').le
  unfold digits at hs hhigh
  calc 10 ^ prec * (c' * 10 ^ (-s).toNat)
      ≤ 10 ^ prec * (10 ^ (Nat.log 10 c' + 1) * 10 ^ (-s).toNat) := by gcongr
    _ = 10 ^ Nat.log 10 c * 10 ^ s.toNat := by
      rw [← pow_add, ← pow_add, ← pow_add]
      congr 1
      push_cast at hs
      omega
    _ ≤ c * 10 ^ s.toNat := by gcongr

theorem value_div_value (a b : Decimal) (s : ℤ) :
    a.value / b.value = a.sign * b.sign * (((a.coefficient * 10 ^ s.toNat : ℕ) : ℚ) /
      (b.coefficient * 10 ^ (-s).toNat : ℕ) * 10 ^ (a.exponent - b.exponent - s)) := by
  have hpow : (10 : ℚ) ^ s = 10 ^ s.toNat / 10 ^ (-s).toNat := by
    rw [← zpow_natCast, ← zpow_natCast, ← zpow_sub₀ (by norm_num)]
    congr 1
    omega
  have hsign : b.sign⁻¹ = b.sign := by
    rcases b.sign_eq with h | h <;> rw [h] <;> norm_num
  rw [value, value, zpow_sub₀ (by norm_num), zpow_sub₀ (by norm_num), hpow, mul_div_mul_comm,
    div_eq_mul_inv a.sign, hsign]
  push_cast
  field_simp

theorem rounds_div (hctx : ctx.Proper) (a : Decimal) {b : Decimal} (hb : b.coefficient ≠ 0) :
    ctx.Rounds (ctx.div a b) (a.value / b.value) := by
  unfold div
  dsimp only
  rw [if_neg hb]
  by_cases ha : a.coefficient = 0
  · rw [if_pos ha, value_eq_zero_iff.mpr ha, zero_div,
      ← value_eq_zero_iff (d := ⟨a.negative != b.negative, 0, a.exponent - b.exponent⟩).mpr rfl]
    exact rounds_fix hctx _
  rw [if_neg ha]
  generalize hs : (digits b.coefficient - digits a.coefficient + ctx.prec + 1 : ℤ) = s
  have hge := pow_prec_mul_le ha b.coefficient s hs.symm
  rw [value_div_value a b s]
  have hm : 0 < b.coefficient * 10 ^ (-s).toNat := by positivity
  generalize a.coefficient * 10 ^ s.toNat = n at hge ⊢
  generalize b.coefficient * 10 ^ (-s).toNat = m at hge hm ⊢
  generalize a.exponent - b.exponent - s = e
  have hmQ : (0 : ℚ) < m := by exact_mod_cast hm
  by_cases hexact : n % m = 0
  · have hdiv : (n : ℚ) / m = (n / m : ℕ) := by
      rw [div_eq_iff hmQ.ne']
      exact_mod_cast (Nat.div_mul_cancel (Nat.dvd_of_mod_eq_zero hexact)).symm
    rw [if_neg (not_not.mpr hexact), hdiv, ← stripTo_value (a.exponent - b.exponent) s.toNat,
      ← sign_bne a b]
    exact rounds_fix hctx _
  · rw [if_pos hexact, ← sign_bne a b (if n / m % 5 = 0 then n / m + 1 else n / m) e]
    have hlow : n / m * m + 1 ≤ n := by
      have := Nat.div_add_mod' n m
      omega
    have hhigh : n < (n / m + 1) * m := by
      rw [mul_comm]
      exact Nat.lt_mul_div_succ n hm
    have hq : 10 ^ ctx.prec ≤ n / m := (Nat.le_div_iff_mul_le hm).mpr hge
    generalize n / m = q at hlow hhigh hq ⊢
    have hlow : (q * m + 1 : ℚ) ≤ n := by exact_mod_cast hlow
    have hhigh : (n : ℚ) < (q + 1) * m := by exact_mod_cast hhigh
    -- the quotient, and the coefficient made sticky, are between the same multiples of five
    obtain ⟨t, ht, ht'⟩ : ∃ t, 5 * t ≤ q ∧ q < 5 * (t + 1) := ⟨q / 5, by omega, by omega⟩
    have hprec : 10 ^ ctx.prec ≤ 5 * t := by
      obtain ⟨j, hj⟩ : ∃ j, ctx.prec = j + 1 := ⟨ctx.prec - 1, by have := hctx.prec; omega⟩
      rw [hj, pow_succ] at hq ⊢
      omega
    have htQ : (5 * t : ℚ) ≤ q := by exact_mod_cast ht
    have htQ' : (q : ℚ) + 1 ≤ 5 * (t + 1) := by exact_mod_cast ht'
    have hquot : (5 * t : ℚ) < n / m ∧ (n / m : ℚ) < 5 * (t + 1) := by
      rw [lt_div_iff₀ hmQ, div_lt_iff₀ hmQ]
      constructor <;> nlinarith
    have hsticky : (5 * t : ℚ) < (if q % 5 = 0 then q + 1 else q : ℕ) ∧
        ((if q % 5 = 0 then q + 1 else q : ℕ) : ℚ) < 5 * (t + 1) := by
      split
      · exact ⟨by exact_mod_cast (by omega : 5 * t < q + 1),
          by exact_mod_cast (by omega : q + 1 < 5 * (t + 1))⟩
      · exact ⟨by exact_mod_cast (by omega : 5 * t < q),
          by exact_mod_cast (by omega : q < 5 * (t + 1))⟩
    generalize (if q % 5 = 0 then q + 1 else q : ℕ) = c at hsticky ⊢
    obtain ⟨hlog, hround⟩ := round_eq_of_between hquot.1 hquot.2 hprec hsticky.1 hsticky.2 e
    have hposq : (0 : ℚ) < n / m := lt_of_le_of_lt (by positivity) hquot.1
    have hposc : (0 : ℚ) < c := lt_of_le_of_lt (by positivity) hsticky.1
    have hpow : (0 : ℚ) < 10 ^ e := by positivity
    refine ⟨fun p h => ?_, fun h => fix_isOk hctx ?_⟩
    · rw [value_fix hctx h, value, round_sign_mul, round_sign_mul, hround]
    · rw [abs_mul, abs_sign, one_mul, abs_of_pos (mul_pos hposq hpow)] at h
      rw [abs_value]
      have hiff {z : ℚ} (hz : 0 < z) :
          z * 10 ^ e < 10 ^ ctx.emax ↔ Int.log 10 z + e < ctx.emax := by
        rw [← log_mul_zpow hz, ← Int.lt_zpow_iff_log_lt (by norm_num) (mul_pos hz hpow)]
        exact_mod_cast Iff.rfl
      rw [hiff hposq, hlog] at h
      exact (hiff hposc).mpr h

/-- The coefficient that `quantize` computes. -/
theorem quantize_coefficient (r : Rounding) (d : Decimal) (e : ℤ) :
    ((if e ≤ d.exponent then d.coefficient * 10 ^ (d.exponent - e).toNat
      else roundShift r d.coefficient (e - d.exponent).toNat : ℕ) : ℤ) =
      r.toInt (|d.value| / 10 ^ e) := by
  have hpow {m n : ℤ} (h : m ≤ n) : (10 : ℚ) ^ n = 10 ^ (n - m).toNat * 10 ^ m := by
    rw [← zpow_natCast, ← zpow_add₀ (by norm_num)]
    congr 1
    omega
  rw [abs_value]
  split
  · next he =>
    rw [hpow he, ← mul_assoc, mul_div_assoc, div_self (by positivity), mul_one]
    have hcast : (d.coefficient : ℚ) * 10 ^ (d.exponent - e).toNat =
        ((d.coefficient * 10 ^ (d.exponent - e).toNat : ℕ) : ℤ) := by
      push_cast
      rfl
    rw [hcast, Rounding.toInt_intCast]
  · next he =>
    rw [hpow (not_le.mp he).le, mul_div_mul_right _ _ (by positivity)]
    exact roundShift_eq r _ _

theorem value_quantize (hctx : ctx.Proper) (h : ctx.quantize r d e = .ok q) :
    q.value = r.toInt (d.value / 10 ^ e) * 10 ^ e := by
  have hsign (x : ℚ) : (r.toInt (d.sign * x) : ℚ) = d.sign * r.toInt x := by
    rcases d.sign_eq with h | h
    · rw [h, one_mul, one_mul]
    · rw [h, neg_one_mul, neg_one_mul, Rounding.toInt_neg, Int.cast_neg]
  unfold quantize at h
  split at h
  · cases h
  next hrange =>
  rw [not_or, not_lt, not_lt] at hrange
  split at h
  · next hd =>
    have hzero := Rounding.toInt_intCast r 0
    rw [Int.cast_zero] at hzero
    have hdigits : digits 0 ≤ ctx.prec := by simpa [digits] using hctx.prec
    rw [fix_eq h hdigits hrange.1 hrange.2, value_eq_zero_iff.mpr hd, zero_div, hzero,
      Int.cast_zero, zero_mul]
    exact value_eq_zero_iff.mpr rfl
  split at h
  · cases h
  dsimp only at h
  have hc := quantize_coefficient r d e
  generalize (if e ≤ d.exponent then _ else _ : ℕ) = c at h hc
  split at h
  · cases h
  next hfits =>
  rw [not_or, not_lt, not_lt] at hfits
  rw [fix_eq h hfits.2 hrange.1 hrange.2, value_eq_sign_mul d, mul_div_assoc, hsign, ← hc, value,
    Int.cast_natCast, mul_assoc]
  rfl

theorem quantize_isOk (hctx : ctx.Proper) (r : Rounding) (he : ctx.etiny ≤ e)
    (he' : ctx.prec + e ≤ ctx.emax) (h : |d.value| < 10 ^ (ctx.prec + e - 1)) :
    ∃ q, ctx.quantize r d e = .ok q := by
  have hprec := hctx.prec
  unfold quantize
  rw [if_neg (by omega)]
  by_cases hd : d.coefficient = 0
  · rw [if_pos hd]
    refine fix_isOk hctx ?_
    rw [value_eq_zero_iff.mpr rfl, abs_zero]
    positivity
  have hadjusted : d.adjusted < ctx.prec + e - 1 := by
    rw [← log_abs_value hd, ← Int.lt_zpow_iff_log_lt (by norm_num)
      (abs_pos.mpr (value_eq_zero_iff.not.mpr hd))]
    exact_mod_cast h
  rw [if_neg hd, if_neg (by omega)]
  dsimp only
  have hc := quantize_coefficient r d e
  generalize (if e ≤ d.exponent then _ else _ : ℕ) = c at hc ⊢
  have hpow : (0 : ℚ) < 10 ^ e := by positivity
  have hle : |d.value| / 10 ^ e ≤ ((10 ^ (ctx.prec - 1) : ℕ) : ℤ) := by
    have hadd : (10 : ℚ) ^ (ctx.prec + e - 1) = 10 ^ (ctx.prec - 1) * 10 ^ e := by
      rw [← zpow_natCast, ← zpow_add₀ (by norm_num)]
      congr 1
      omega
    rw [hadd] at h
    rw [div_le_iff₀ hpow]
    push_cast
    exact h.le
  have hcle := r.toInt_le_of_le (by positivity) hle
  rw [← hc, Int.ofNat_le] at hcle
  have hlt : c < 10 ^ ctx.prec :=
    hcle.trans_lt (Nat.pow_lt_pow_right (by norm_num) (by omega))
  have hdigits : digits c ≤ ctx.prec := Nat.succ_le_of_lt (Nat.log_lt_of_lt_pow' (by omega) hlt)
  have hmax : ¬ (ctx.emax < (⟨d.negative, c, e⟩ : Decimal).adjusted ∨ ctx.prec < digits c) := by
    unfold adjusted
    dsimp only
    omega
  rw [if_neg hmax]
  refine fix_isOk hctx ?_
  have hlt : (c : ℚ) * 10 ^ e < 10 ^ ctx.prec * 10 ^ e :=
    mul_lt_mul_of_pos_right (by exact_mod_cast hlt) hpow
  rw [← zpow_natCast, ← zpow_add₀ (by norm_num)] at hlt
  rw [abs_value]
  exact hlt.trans_le (zpow_le_zpow_right₀ (by norm_num) he')

end Context

end Decimal
