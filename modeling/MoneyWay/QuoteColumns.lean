import MoneyWay.Quotes

/-!
# The columns of a quote

When a quote fits the numeric columns of a transaction. The schemas bound the amount, and
nothing bounds the rate from below: with a very low one the division, the rounding or the
column overflows.

## Main definitions

- `Payable` — the bound on the rate, in terms of the request and the settings

## Main results

- `Quotable.quote_cases` — a quote is computed and fits, or is not payable
-/

set_option autoImplicit false

namespace MoneyWay

open NearestEven Decimal Decimal.Context Sql

/-! ## Columns -/

/-- What a column of `s` places stores of a number that has no more. -/
theorem toNumeric_eq {p s : ℕ} {d : Decimal} {n : ℤ} (h : d.value = n * 10 ^ (-s : ℤ))
    (hn : 0 ≤ n) :
    toNumeric p s d = if n < 10 ^ p then some n else none := by
  have hnQ : (0 : ℚ) ≤ n := by exact_mod_cast hn
  have habs : (d.coefficient : ℚ) * 10 ^ d.exponent = n * 10 ^ (-s : ℤ) := by
    rw [← abs_value, h, abs_of_nonneg (by positivity)]
  have hsign : d.negative = true → n = 0 := by
    intro hneg
    have hle : d.value ≤ 0 := by
      rw [value, sign, if_pos hneg]
      have hnonneg : (0 : ℚ) ≤ d.coefficient * 10 ^ d.exponent := by positivity
      linarith
    rw [h] at hle
    have hpow : (0 : ℚ) < 10 ^ (-s : ℤ) := by positivity
    have hle : (n : ℚ) ≤ 0 := by nlinarith
    have hle : n ≤ 0 := by exact_mod_cast hle
    omega
  have hstored : (if -(s : ℤ) ≤ d.exponent then
      (d.coefficient : ℤ) * 10 ^ (d.exponent + s).toNat
    else
      let k := (-(s : ℤ) - d.exponent).toNat
      ((d.coefficient : ℤ) * 2 + 10 ^ k) / (2 * 10 ^ k)) = n := by
    split
    · next he =>
      have hpow : (10 : ℚ) ^ d.exponent = 10 ^ (d.exponent + s).toNat * 10 ^ (-s : ℤ) := by
        rw [← zpow_natCast, ← zpow_add₀ (by norm_num)]
        congr 1
        omega
      rw [hpow, ← mul_assoc, mul_left_inj' (by positivity)] at habs
      exact_mod_cast habs
    · next he =>
      have hpow : (10 : ℚ) ^ (-s : ℤ) = 10 ^ (-(s : ℤ) - d.exponent).toNat * 10 ^ d.exponent := by
        rw [← zpow_natCast, ← zpow_add₀ (by norm_num)]
        congr 1
        omega
      rw [hpow, ← mul_assoc, mul_left_inj' (by positivity)] at habs
      dsimp only
      generalize (-(s : ℤ) - d.exponent).toNat = k at habs ⊢
      have hc : (d.coefficient : ℤ) = n * 10 ^ k := by exact_mod_cast habs
      have hpos : (0 : ℤ) < 10 ^ k := by positivity
      have hsum : (d.coefficient : ℤ) * 2 + 10 ^ k = 10 ^ k + n * (2 * 10 ^ k) := by
        rw [hc]
        ring
      rw [hsum, Int.add_mul_ediv_right _ _ (by positivity), Int.ediv_eq_zero_of_lt hpos.le
        (by linarith), zero_add]
  unfold toNumeric
  rw [hstored]
  dsimp only
  split
  · split
    · next hneg => rw [hsign hneg, neg_zero]
    · rfl
  · rfl

/-! ## The bound -/

/-- Half a unit of the 28th digit below what a `NUMERIC(18, 8)` column cannot store. -/
def usdtLimit : ℚ := 10 ^ 10 - 5 / 10 ^ 19

theorem round28_lt_iff {y : ℚ} (hy : 0 ≤ y) : round28 y < 10 ^ 10 ↔ y < usdtLimit := by
  have hround (h : 10 ^ (9 : ℤ) ≤ y) (h' : y < 10 ^ (10 : ℤ)) :
      round28 y = nearestEven (y * 10 ^ 18) / 10 ^ 18 := by
    have hulp : Context.default.ulp y = -18 := ulp_eq h h' (by decide)
    rw [round28, Context.round, hulp, zpow_neg, div_inv_eq_mul, ← div_eq_mul_inv]
    norm_cast
  unfold usdtLimit
  constructor
  · intro hlt
    by_contra hle
    rw [not_lt] at hle
    have hhigh : y < 10 ^ (10 : ℤ) := by
      by_contra hge
      have hge := zpow_le_round proper_default (not_lt.mp hge) (by decide)
      norm_num at hge
      linarith
    rw [hround (by norm_num; linarith) hhigh] at hlt
    -- halfway, and the last digit of what is above is even
    have htie : nearestEven (10 ^ 28 - 1 / 2 : ℚ) = 10 ^ 28 := by
      refine nearestEven_eq_iff.mpr (.inr ⟨?_, by norm_num⟩)
      rw [abs_of_nonpos (by norm_num)]
      norm_num
    have hmono : nearestEven (10 ^ 28 - 1 / 2 : ℚ) ≤ nearestEven (y * 10 ^ 18) :=
      nearestEven_mono (by linarith)
    rw [htie] at hmono
    have hmono : (10 ^ 28 : ℚ) ≤ nearestEven (y * 10 ^ 18) := by exact_mod_cast hmono
    rw [div_lt_iff₀ (by norm_num), ← pow_add] at hlt
    exact absurd hlt (not_lt.mpr hmono)
  · intro hlt
    by_cases hsmall : y ≤ 1 * 10 ^ (9 : ℤ)
    · have hle : round28 y ≤ (1 : ℤ) * 10 ^ (9 : ℤ) :=
        round28_le hy (by exact_mod_cast hsmall) (by norm_num) (by norm_num)
      norm_num at hle
      linarith
    · rw [not_le, one_mul] at hsmall
      rw [hround hsmall.le (by norm_num; linarith), div_lt_iff₀ (by norm_num)]
      have hnear := (abs_le.mp (abs_sub_nearestEven_le (y * 10 ^ 18))).1
      have hlt : y * 10 ^ 18 < 10 ^ 10 * 10 ^ 18 - 1 / 2 := by
        have hmul := mul_lt_mul_of_pos_right hlt (by norm_num : (0 : ℚ) < 10 ^ 18)
        norm_num at hmul ⊢
        exact hmul
      generalize (nearestEven (y * 10 ^ 18) : ℚ) = z at hnear ⊢
      linarith

/-! ## Quotes and columns -/

section

variable {amountRub discountPercent : Decimal}

/-- What is left after the commission, at the rate of the settings, is within the column. -/
def Payable (settings : Settings) (amountRub discountPercent : Decimal) : Prop :=
  amountRub.value - quotedCommission amountRub.value settings.depositCommissionPercent.value
    discountPercent.value < usdtLimit * settings.rubUsdtRate.value

/-- The quote of a request, and whether it fits. -/
theorem Quotable.quote_cases (h : Quotable amountRub discountPercent) (settings : Settings) :
    (∃ signal, calculateDepositAmounts amountRub settings discountPercent = .error signal) ∧
        ¬ Payable settings amountRub discountPercent ∨
    ∃ commission amountUsdt, calculateDepositAmounts amountRub settings discountPercent =
        .ok (commission, amountUsdt) ∧
      commission.Places 2 ∧ 0 ≤ commission.value ∧ commission.value ≤ 10 ^ 8 ∧
      amountUsdt.Places 8 ∧ 0 ≤ amountUsdt.value ∧
      (amountUsdt.value < 10 ^ 10 ↔ Payable settings amountRub discountPercent) := by
  obtain ⟨commission, netRub, hcalc, hc, hnet, hplaces, hc0, hc1⟩ := h.exists_commission settings
  have hctx := proper_default
  have hrate := value_rate settings
  have hrate0 : settings.rubUsdtRate.coefficient ≠ 0 := by
    rw [Ne, ← value_eq_zero_iff]
    exact hrate.ne'
  have hnet0 : 0 ≤ netRub.value / settings.rubUsdtRate.value := by
    rw [hnet]
    exact div_nonneg (by linarith) hrate.le
  have hpayable : round28 (netRub.value / settings.rubUsdtRate.value) < 10 ^ 10 ↔
      Payable settings amountRub discountPercent := by
    rw [round28_lt_iff hnet0, div_lt_iff₀ hrate, hnet, hc, Payable]
  have hdiv := rounds_div hctx netRub hrate0
  cases hq : Context.default.div netRub settings.rubUsdtRate with
  | error signal =>
    refine .inl ⟨⟨signal, by rw [hcalc, hq]; rfl⟩, fun hpay => ?_⟩
    have hlt := (round28_lt_iff hnet0).mp (hpayable.mpr hpay)
    obtain ⟨q, hok, -⟩ := exists_round28 hdiv hnet0 (by unfold usdtLimit at hlt; linarith)
    rw [hq] at hok
    cases hok
  | ok q =>
    have hqv : q.value = round28 (netRub.value / settings.rubUsdtRate.value) := hdiv.value q hq
    have hq0 : 0 ≤ q.value := by
      rw [hqv]
      exact round_nonneg hnet0
    rw [← hqv] at hpayable
    cases hu : Context.default.quantize .down q (-8) with
    | error signal =>
      refine .inl ⟨⟨signal, ?_⟩, fun hpay => ?_⟩
      · rw [hcalc, hq]
        simp only [Bind.bind, Except.bind, hu]
      · have hlt := hpayable.mpr hpay
        obtain ⟨amountUsdt, hok⟩ := quantize_isOk hctx .down (d := q) (e := -8) (by decide)
          (by decide) (by
            rw [abs_of_nonneg hq0]
            refine hlt.trans ?_
            show (10 ^ 10 : ℚ) < 10 ^ (19 : ℤ)
            norm_num)
        rw [hu] at hok
        cases hok
    | ok amountUsdt =>
      have huv : amountUsdt.value = ⌊q.value * 10 ^ 8⌋ * 10 ^ (-8 : ℤ) := by
        rw [value_quantize hctx hu, Rounding.toInt_down (by positivity), zpow_neg, div_inv_eq_mul]
        norm_cast
      have hfloor : 0 ≤ ⌊q.value * 10 ^ 8⌋ := Int.floor_nonneg.mpr (by positivity)
      refine .inr ⟨commission, amountUsdt, ?_, hplaces, hc0, hc1.trans h.le, ⟨_, huv⟩, ?_, ?_⟩
      · rw [hcalc, hq]
        simp only [Bind.bind, Except.bind, hu]
        rfl
      · rw [huv]
        have hfloor : (0 : ℚ) ≤ ⌊q.value * 10 ^ 8⌋ := by exact_mod_cast hfloor
        positivity
      · have hiff : amountUsdt.value < 10 ^ 10 ↔ ⌊q.value * 10 ^ 8⌋ < 10 ^ 18 := by
          rw [huv, zpow_neg, ← div_eq_mul_inv, div_lt_iff₀ (by norm_num)]
          norm_num
          exact_mod_cast Iff.rfl
        rw [hiff, Int.floor_lt, ← hpayable]
        push_cast
        constructor <;> intro hlt <;> linarith

end

end MoneyWay
