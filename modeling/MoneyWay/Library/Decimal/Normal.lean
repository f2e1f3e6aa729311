import MoneyWay.Library.Decimal.Value

/-!
# Normal forms of decimal numbers

`normalize` rounds a number to the context and strips its trailing zeros. A number that fits the
context keeps its value, and numbers of one value have one normal form.

## Main definitions

- `Context.normalize`, `Normal` — the operation and what it makes of a number that is not zero

## Main results

- `normalize_isOk` — the normal form of a number that fits
- `Normal.eq_of_value` — it is the only one of its value
-/

set_option autoImplicit false

namespace Decimal

/-- Not zero, and without trailing zeros. -/
def Normal (d : Decimal) : Prop := d.coefficient % 10 ≠ 0

/-- Round to the context and strip trailing zeros; every zero is the same. -/
def Context.normalize (ctx : Context) (d : Decimal) : Except Signal Decimal :=
  match ctx.fix d with
  | .error s => .error s
  | .ok q =>
    if q.coefficient = 0 then .ok ⟨q.negative, 0, 0⟩
    else
      let r := stripTo ctx.emax (digits q.coefficient) q.coefficient q.exponent
      .ok ⟨q.negative, r.1, r.2⟩

variable {d d' q : Decimal}

theorem Normal.coefficient_ne_zero (h : d.Normal) : d.coefficient ≠ 0 := by
  intro hzero
  exact h (by rw [hzero])

theorem sign_of_value_pos (h : 0 < d.value) : d.negative = false := by
  by_contra hneg
  have hsign : d.sign = -1 := if_pos ((Bool.not_eq_false _).mp hneg)
  have hnonneg : (0 : ℚ) ≤ d.coefficient * 10 ^ d.exponent := by positivity
  rw [value, hsign] at h
  linarith

/-! ## One normal form for a value -/

/-- A coefficient without trailing zeros has the largest exponent. -/
theorem exponent_le_of_normal {m m' : ℕ} {e e' : ℤ} (h : (m * 10 ^ e : ℚ) = m' * 10 ^ e')
    (hm : m % 10 ≠ 0) : e' ≤ e := by
  by_contra hlt
  obtain ⟨k, hk⟩ : ∃ k : ℕ, e' = e + (k + 1 : ℕ) := ⟨(e' - e - 1).toNat, by omega⟩
  have hpow : (10 : ℚ) ^ e ≠ 0 := by positivity
  rw [hk, zpow_add₀ (by norm_num), zpow_natCast, mul_comm (10 ^ e), ← mul_assoc] at h
  have hcoefficient : (m : ℚ) = ((m' * 10 ^ (k + 1) : ℕ) : ℚ) := by
    rw [mul_right_cancel₀ hpow h]
    push_cast
    rfl
  have hm' : m = m' * 10 ^ (k + 1) := by exact_mod_cast hcoefficient
  apply hm
  rw [hm', pow_succ, ← mul_assoc, Nat.mul_mod_left]

theorem Normal.eq_of_value (h : d.Normal) (h' : d'.Normal) (hsign : d.negative = d'.negative)
    (hvalue : d.value = d'.value) : d = d' := by
  have habs : (d.coefficient * 10 ^ d.exponent : ℚ) = d'.coefficient * 10 ^ d'.exponent := by
    rw [← abs_value, ← abs_value, hvalue]
  have hexponent : d.exponent = d'.exponent :=
    le_antisymm (exponent_le_of_normal habs.symm h') (exponent_le_of_normal habs h)
  have hpow : (10 : ℚ) ^ d'.exponent ≠ 0 := by positivity
  rw [hexponent] at habs
  have hcoefficient : d.coefficient = d'.coefficient := by
    exact_mod_cast mul_right_cancel₀ hpow habs
  cases d
  cases d'
  cases hsign
  cases hexponent
  cases hcoefficient
  rfl

/-! ## Normalizing -/

namespace Context

variable {ctx : Context}

/-- All trailing zeros are stripped, up to the largest exponent. -/
theorem stripTo_stripped (ideal : ℤ) (fuel c : ℕ) (e : ℤ) (hc : c ≠ 0) (hfuel : c < 10 ^ fuel) :
    (stripTo ideal fuel c e).1 % 10 ≠ 0 ∨ ideal ≤ (stripTo ideal fuel c e).2 := by
  induction fuel generalizing c e with
  | zero =>
    rw [Nat.pow_zero] at hfuel
    omega
  | succ fuel ih =>
    rw [stripTo]
    by_cases h : e < ideal ∧ c % 10 = 0
    · rw [if_pos h]
      have hpow : 10 ^ (fuel + 1) = 10 ^ fuel * 10 := pow_succ 10 fuel
      exact ih (c / 10) (e + 1) (by omega) (by omega)
    · rw [if_neg h]
      by_cases hzero : c % 10 = 0
      · exact .inr (not_lt.mp fun hlt => h ⟨hlt, hzero⟩)
      · exact .inl hzero

theorem negative_fix (h : ctx.fix d = .ok q) : q.negative = d.negative := by
  rw [fix] at h
  by_cases hzero : d.coefficient = 0
  · rw [if_pos hzero] at h
    cases h
    rfl
  · rw [if_neg hzero] at h
    split at h
    · cases h
    dsimp only at h
    split at h
    · split at h
      · split at h
        · cases h
        · cases h
          rfl
      · cases h
        rfl
    · cases h
      rfl

/-- The normal form of a number whose digits fit the context. -/
theorem normalize_isOk (hctx : ctx.Proper) {n k e : ℤ} (hn : n ≠ 0) (hvalue : d.value = n * 10 ^ e)
    (hk : |d.value| < 10 ^ k) (hdigits : k - ctx.prec ≤ e) (hetiny : ctx.etiny ≤ e)
    (hmax : k ≤ ctx.emax) :
    ∃ q, ctx.normalize d = .ok q ∧ q.value = d.value ∧ q.negative = d.negative ∧ q.Normal := by
  have hlt : |d.value| < 10 ^ ctx.emax :=
    hk.trans_le (zpow_le_zpow_right₀ (by norm_num) hmax)
  obtain ⟨p, hp⟩ := fix_isOk hctx hlt
  have hpvalue : p.value = d.value := by
    rw [value_fix hctx hp]
    exact round_eq hvalue hk hdigits hetiny
  have hne : d.value ≠ 0 := by
    rw [hvalue]
    exact mul_ne_zero (Int.cast_ne_zero.mpr hn) (by positivity)
  have hpne : p.coefficient ≠ 0 := fun hzero =>
    hne (by rw [← hpvalue, value_eq_zero_iff.mpr hzero])
  have hstrip := stripTo_value ctx.emax (digits p.coefficient) p.coefficient p.exponent
  have hstripped := stripTo_stripped ctx.emax (digits p.coefficient) p.coefficient p.exponent hpne
    p.coefficient_lt
  have hnormal : ctx.normalize d = .ok ⟨p.negative,
      (stripTo ctx.emax (digits p.coefficient) p.coefficient p.exponent).1,
      (stripTo ctx.emax (digits p.coefficient) p.coefficient p.exponent).2⟩ := by
    rw [normalize, hp]
    exact if_neg hpne
  have hsign : p.negative = d.negative := negative_fix hp
  refine ⟨_, hnormal, ?_, hsign, ?_⟩
  · rw [← hpvalue, value, value, hstrip]
    rfl
  · refine hstripped.resolve_right fun hle => ?_
    -- the number would be too large
    have habs : |d.value| = (stripTo ctx.emax (digits p.coefficient) p.coefficient p.exponent).1 *
        10 ^ (stripTo ctx.emax (digits p.coefficient) p.coefficient p.exponent).2 := by
      rw [hstrip, ← hpvalue, abs_value]
    generalize stripTo ctx.emax (digits p.coefficient) p.coefficient p.exponent = r at hle habs
    have hone : 1 ≤ r.1 := by
      apply Nat.one_le_iff_ne_zero.mpr
      intro hzero
      rw [hzero, Nat.cast_zero, zero_mul, abs_eq_zero] at habs
      exact hne habs
    have hpow : (10 : ℚ) ^ ctx.emax ≤ 10 ^ r.2 := zpow_le_zpow_right₀ (by norm_num) hle
    have hmul : (10 : ℚ) ^ r.2 ≤ r.1 * 10 ^ r.2 := by
      have hcast : (1 : ℚ) ≤ r.1 := by exact_mod_cast hone
      exact le_mul_of_one_le_left (by positivity) hcast
    rw [habs] at hlt
    linarith

end Context

end Decimal
