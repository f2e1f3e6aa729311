import MoneyWay.Deposits
import MoneyWay.Library.Decimal.Value

/-!
# Quotes

What a deposit costs and what it gives, as rational numbers. The commission is rounded to
kopecks, the USDT amount down to eight places, and in between every operation is rounded to 28
digits.

## Main definitions

- `Quotable` — the amounts and discounts that can be asked for
- `quotedCommission` — the commission, with the rounding of each operation
- `exactCommission`, `exactUsdt` — the quote without the rounding in between

## Main results

- `calculateDepositAmounts_exact` — the quote never pays too much, and less than one unit too
  little
- `calculateDepositAmounts_mono` — a higher amount or discount never gives less
-/

set_option autoImplicit false

namespace MoneyWay

open NearestEven Decimal Decimal.Context

/-! ## The default context -/

/-- One unit of the second decimal place. -/
theorem hundredth : (10 : ℚ) ^ (-2 : ℤ) = 1 / 100 := by norm_num

/-- Rounding to 28 digits. -/
abbrev round28 (x : ℚ) : ℚ := Context.default.round x

theorem inRange {x : ℚ} (h : |x| ≤ 10 ^ 20) : |x| < 10 ^ Context.default.emax := by
  have hpow : (10 : ℚ) ^ (20 : ℕ) < 10 ^ Context.default.emax := by
    rw [← zpow_natCast]
    exact zpow_lt_zpow_right₀ (by norm_num) (by decide)
  exact h.trans_lt hpow

section

variable {x : ℚ} {n e : ℤ}

theorem exists_round28 {o : Except Signal Decimal} (h : Context.default.Rounds o x) (hx : 0 ≤ x)
    (hx' : x ≤ 10 ^ 20) : ∃ q, o = .ok q ∧ q.value = round28 x :=
  h.exists_ok (inRange ((abs_of_nonneg hx).trans_le hx'))

theorem round28_le (hx : 0 ≤ x) (h : x ≤ n * 10 ^ e) (hn : (n * 10 ^ e : ℚ) ≤ 10 ^ 10)
    (he : -16 ≤ e) : round28 x ≤ n * 10 ^ e := by
  refine round_le (k := 11) hx h (hn.trans_lt (by norm_num)) ?_ ?_
  · show 11 - 28 ≤ e
    omega
  · show -999999 - 28 + 1 ≤ e
    omega

theorem round28_eq (h : x = n * 10 ^ e) (hx : |x| < 10 ^ (28 + e)) (he : -100 ≤ e) :
    round28 x = x := by
  refine round_eq h hx ?_ ?_
  · show 28 + e - 28 ≤ e
    omega
  · show -999999 - 28 + 1 ≤ e
    omega

end

/-! ## The quote with its rounding -/

/-- A request is for whole kopecks, a discount has two places. -/
structure Quotable (amountRub discountPercent : Decimal) : Prop where
  positive : 0 < amountRub.value
  le : amountRub.value ≤ 10 ^ 8
  places : amountRub.Places 2
  discount : 0 ≤ discountPercent.value ∧ discountPercent.value ≤ 100
  discount_places : discountPercent.Places 2

/-- The commission of an amount, a percentage and a discount, with the rounding of each
operation. -/
def quotedCommission (a p d : ℚ) : ℚ :=
  nearestEven (round28 (round28 (round28 (round28 (a * p) / 100) * (100 - d)) / 100) * 100) / 100

/-- The commission is not rounded but to kopecks. -/
def exactCommission (a p d : ℚ) : ℚ := nearestEven (a * p * (100 - d) / 10000 * 100) / 100

/-- The amount in USDT is only rounded down to eight places. -/
def exactUsdt (net rate : ℚ) : ℚ := ⌊net / rate * 10 ^ 8⌋ / 10 ^ 8

section

variable {settings : Settings} {amountRub discountPercent : Decimal}

theorem value_percent (settings : Settings) : 0 ≤ settings.depositCommissionPercent.value ∧
    settings.depositCommissionPercent.value < 100 := by
  obtain ⟨hlow, hhigh⟩ := settings.commission_range
  rw [le_iff_value, value_ofNat] at hlow
  rw [lt_iff_value, value_ofNat] at hhigh
  exact_mod_cast And.intro hlow hhigh

theorem value_rate (settings : Settings) : 0 < settings.rubUsdtRate.value := by
  have hrate := settings.rate_positive
  rw [lt_iff_value, value_ofNat] at hrate
  exact_mod_cast hrate

/-- A percentage of at most 100, taken with rounding, does not exceed the amount. -/
theorem percentage_le {a p : ℚ} (n : ℤ) (ha : a ≤ n * 10 ^ (-2 : ℤ)) (hn : n ≤ 10 ^ 10)
    (ha0 : 0 ≤ a) (hp : 0 ≤ p) (hp' : p ≤ 100) :
    0 ≤ round28 (a * p) ∧ round28 (a * p) ≤ n ∧
      0 ≤ round28 (round28 (a * p) / 100) ∧
      round28 (round28 (a * p) / 100) ≤ n * 10 ^ (-2 : ℤ) := by
  have hnQ : (n : ℚ) ≤ 10 ^ 10 := by exact_mod_cast hn
  rw [hundredth] at ha ⊢
  have hfirst : 0 ≤ round28 (a * p) := round_nonneg (mul_nonneg ha0 hp)
  have hfirst' : round28 (a * p) ≤ n := by
    have hle : a * p ≤ n * 10 ^ (0 : ℤ) := by
      rw [zpow_zero]
      nlinarith
    simpa using round28_le (mul_nonneg ha0 hp) hle (by simpa using hnQ) (by norm_num)
  have hsecond : 0 ≤ round28 (a * p) / 100 := by positivity
  refine ⟨hfirst, hfirst', round_nonneg hsecond, ?_⟩
  have hle : round28 (a * p) / 100 ≤ n * 10 ^ (-2 : ℤ) := by
    rw [hundredth]
    linarith
  have hle := round28_le hsecond hle (by rw [hundredth]; linarith) (by norm_num)
  rwa [hundredth] at hle

namespace Quotable

variable (h : Quotable amountRub discountPercent)

include h

/-- The amount in kopecks. -/
theorem exists_kopecks : ∃ n : ℤ, amountRub.value = n * 10 ^ (-2 : ℤ) ∧ 0 < n ∧ n ≤ 10 ^ 10 := by
  obtain ⟨n, hn⟩ := h.places
  have hn : amountRub.value = n * 10 ^ (-2 : ℤ) := hn
  have hpositive := h.positive
  have hle := h.le
  rw [hn, hundredth] at hpositive hle
  refine ⟨n, hn, ?_, ?_⟩
  · have hpos : (0 : ℚ) < n := by linarith
    exact_mod_cast hpos
  · have hle : (n : ℚ) ≤ 10 ^ 10 := by linarith
    exact_mod_cast hle

/-- What is left of the discount, in hundredths of a percent. -/
theorem exists_rest : ∃ n : ℤ, 100 - discountPercent.value = n * 10 ^ (-2 : ℤ) ∧ 0 ≤ n ∧
    n ≤ 10 ^ 4 := by
  obtain ⟨d, hd⟩ := h.discount_places
  have hd : discountPercent.value = d * 10 ^ (-2 : ℤ) := hd
  obtain ⟨hlow, hhigh⟩ := h.discount
  rw [hd, hundredth] at hlow hhigh
  refine ⟨10 ^ 4 - d, ?_, ?_, ?_⟩
  · rw [hd, hundredth]
    push_cast
    ring
  · have hle : (d : ℚ) ≤ 10 ^ 4 := by linarith
    have hle : d ≤ 10 ^ 4 := by exact_mod_cast hle
    omega
  · have hle : (0 : ℚ) ≤ d := by linarith
    have hle : 0 ≤ d := by exact_mod_cast hle
    omega

/-- The commission before it is rounded to kopecks is computed without a signal, and is not more
than the amount. -/
theorem exists_unrounded (settings : Settings) : ∃ q1 q2 q3 q4 q5 : Decimal,
    Context.default.mul amountRub settings.depositCommissionPercent = .ok q1 ∧
    Context.default.div q1 (.ofNat 100) = .ok q2 ∧
    Context.default.sub (.ofNat 100) discountPercent = .ok q3 ∧
    Context.default.mul q2 q3 = .ok q4 ∧ Context.default.div q4 (.ofNat 100) = .ok q5 ∧
    q5.value = round28 (round28 (round28 (round28 (amountRub.value *
      settings.depositCommissionPercent.value) / 100) * (100 - discountPercent.value)) / 100) ∧
    0 ≤ q5.value ∧ q5.value ≤ amountRub.value := by
  obtain ⟨k, hk, hk0, hk1⟩ := h.exists_kopecks
  obtain ⟨d, hd, hd0, hd1⟩ := h.exists_rest
  obtain ⟨hp0, hp1⟩ := value_percent settings
  have hctx := proper_default
  have hkQ : (k : ℚ) ≤ 10 ^ 10 := by exact_mod_cast hk1
  have hhundred : (ofNat 100).value = 100 := by simp
  have hrest : 0 ≤ 100 - discountPercent.value := by linarith [h.discount.2]
  have hrest' : 100 - discountPercent.value ≤ 100 := by linarith [h.discount.1]
  -- the percentage of the amount, and what the discount leaves of it
  obtain ⟨h1, h1', h2, h2'⟩ := percentage_le k hk.le hk1 h.positive.le hp0 hp1.le
  obtain ⟨h3, h3', h4, h4'⟩ := percentage_le k h2' hk1 h2 hrest hrest'
  have hsmall := h2'
  rw [hundredth] at hsmall
  obtain ⟨q1, hq1, hv1⟩ := exists_round28
    (rounds_mul hctx amountRub settings.depositCommissionPercent)
    (mul_nonneg h.positive.le hp0) (by nlinarith [h.le])
  obtain ⟨q2, hq2, hv2⟩ := exists_round28 (rounds_div hctx q1 (b := .ofNat 100) (by decide))
    (by rw [hv1, hhundred]; positivity) (by rw [hv1, hhundred]; linarith)
  rw [hv1, hhundred] at hv2
  obtain ⟨q3, hq3, hv3⟩ := exists_round28 (rounds_sub hctx (.ofNat 100) discountPercent)
    (by rwa [hhundred]) (by rw [hhundred]; linarith)
  have hexact : round28 (100 - discountPercent.value) = 100 - discountPercent.value := by
    refine round28_eq hd ?_ (by norm_num)
    rw [abs_of_nonneg hrest]
    exact hrest'.trans_lt (by norm_num)
  rw [hhundred, hexact] at hv3
  obtain ⟨q4, hq4, hv4⟩ := exists_round28 (rounds_mul hctx q2 q3)
    (by rw [hv2, hv3]; positivity) (by rw [hv2, hv3]; nlinarith)
  rw [hv2, hv3] at hv4
  obtain ⟨q5, hq5, hv5⟩ := exists_round28 (rounds_div hctx q4 (b := .ofNat 100) (by decide))
    (by rw [hv4, hhundred]; positivity) (by rw [hv4, hhundred]; linarith)
  rw [hv4, hhundred] at hv5
  exact ⟨q1, q2, q3, q4, q5, hq1, hq2, hq3, hq4, hq5, hv5, by rwa [hv5],
    by rw [hv5]; exact h4'.trans hk.ge⟩

/-- The commission is computed without a signal, and is not more than the amount. -/
theorem exists_commission (settings : Settings) : ∃ commission netRub : Decimal,
    calculateDepositAmounts amountRub settings discountPercent = (do
      let q ← Context.default.div netRub settings.rubUsdtRate
      let amountUsdt ← Context.default.quantize .down q (-8)
      return (commission, amountUsdt)) ∧
    commission.value = quotedCommission amountRub.value settings.depositCommissionPercent.value
      discountPercent.value ∧
    netRub.value = amountRub.value - commission.value ∧
    commission.Places 2 ∧ 0 ≤ commission.value ∧ commission.value ≤ amountRub.value := by
  obtain ⟨k, hk, hk0, hk1⟩ := h.exists_kopecks
  obtain ⟨q1, q2, q3, q4, q5, hq1, hq2, hq3, hq4, hq5, hv5, h5, h5'⟩ := h.exists_unrounded settings
  have hctx := proper_default
  have hkQ : (k : ℚ) ≤ 10 ^ 10 := by exact_mod_cast hk1
  obtain ⟨commission, hc⟩ := quantize_isOk hctx .halfEven (d := q5) (e := -2) (by decide)
    (by decide) (by
      rw [abs_of_nonneg h5]
      refine (h5'.trans h.le).trans_lt ?_
      show (10 ^ 8 : ℚ) < 10 ^ (25 : ℤ)
      norm_num)
  have hcv : commission.value = nearestEven (q5.value / 10 ^ (-2 : ℤ)) * 10 ^ (-2 : ℤ) :=
    value_quantize hctx hc
  have hdiv : q5.value / 10 ^ (-2 : ℤ) = q5.value * 100 := by
    rw [hundredth]
    ring
  rw [hdiv] at hcv
  -- the amount has no more places, so it is not exceeded by the rounding either
  have hle : nearestEven (q5.value * 100) ≤ k := by
    refine nearestEven_le_of_le ?_
    rw [hk, hundredth] at h5'
    linarith
  have hnonneg : 0 ≤ nearestEven (q5.value * 100) := by
    refine le_nearestEven_of_le ?_
    rw [Int.cast_zero]
    exact mul_nonneg h5 (by norm_num)
  have hleQ : (nearestEven (q5.value * 100) : ℚ) ≤ k := by exact_mod_cast hle
  have hnonnegQ : (0 : ℚ) ≤ nearestEven (q5.value * 100) := by exact_mod_cast hnonneg
  have hnet : 0 ≤ amountRub.value - commission.value := by
    rw [hk, hcv, hundredth]
    linarith
  have hnet' : amountRub.value - commission.value ≤ 10 ^ 8 := by
    rw [hcv, hundredth]
    linarith [h.le]
  obtain ⟨netRub, hn, hnv⟩ := exists_round28 (rounds_sub hctx amountRub commission) hnet
    (hnet'.trans (by norm_num))
  have hexact : round28 (amountRub.value - commission.value) =
      amountRub.value - commission.value := by
    refine round28_eq (n := k - nearestEven (q5.value * 100)) (e := -2) ?_ ?_ (by norm_num)
    · rw [hk, hcv]
      push_cast
      ring
    · rw [abs_of_nonneg hnet]
      exact hnet'.trans_lt (by norm_num)
  refine ⟨commission, netRub, ?_, ?_, hnv.trans hexact, ⟨_, hcv⟩, ?_, by linarith⟩
  · unfold calculateDepositAmounts
    simp only [hq1, hq2, hq3, hq4, hq5, hc, hn, bind, Except.bind]
  · rw [hcv, quotedCommission, hundredth, hv5]
    ring
  · rw [hcv, hundredth]
    linarith

/-- With a percentage of eight places nothing is rounded but the commission. -/
theorem quotedCommission_eq (hp : settings.depositCommissionPercent.Places 8) :
    quotedCommission amountRub.value settings.depositCommissionPercent.value
        discountPercent.value =
      exactCommission amountRub.value settings.depositCommissionPercent.value
        discountPercent.value := by
  obtain ⟨k, hk, hk0, hk1⟩ := h.exists_kopecks
  obtain ⟨d, hd, hd0, hd1⟩ := h.exists_rest
  obtain ⟨hp0, hp1⟩ := value_percent settings
  obtain ⟨p, hp⟩ := hp
  have hp : settings.depositCommissionPercent.value = p * 10 ^ (-8 : ℤ) := hp
  have ha := h.le
  have ha0 := h.positive.le
  have hrest : 0 ≤ 100 - discountPercent.value := by linarith [h.discount.2]
  have hrest' : 100 - discountPercent.value ≤ 100 := by linarith [h.discount.1]
  unfold quotedCommission exactCommission
  generalize settings.depositCommissionPercent.value = P at hp hp0 hp1 ⊢
  generalize amountRub.value = A at hk ha ha0 ⊢
  generalize 100 - discountPercent.value = D at hd hrest hrest' ⊢
  have hexact {x : ℚ} (n e : ℤ) (hx : x = n * 10 ^ e) (hx0 : 0 ≤ x) (hx1 : x ≤ 10 ^ 10)
      (he : -17 ≤ e) : round28 x = x := by
    refine round28_eq hx ?_ (by omega)
    rw [abs_of_nonneg hx0]
    have hlt : (10 : ℚ) ^ (10 : ℤ) < 10 ^ (28 + e) := zpow_lt_zpow_right₀ (by norm_num) (by omega)
    exact hx1.trans_lt (by exact_mod_cast hlt)
  have hAP0 : 0 ≤ A * P := mul_nonneg ha0 hp0
  have hAP : A * P ≤ 10 ^ 8 * 100 := mul_le_mul ha hp1.le hp0 (by norm_num)
  have hAPD : A * P / 100 * D ≤ 10 ^ 8 * 100 :=
    mul_le_mul (by linarith) hrest' hrest (by norm_num)
  have h1 : round28 (A * P) = A * P := by
    refine hexact (k * p) (-10) ?_ hAP0 (by linarith) (by norm_num)
    rw [hk, hp]
    push_cast
    norm_num
    ring
  have h2 : round28 (A * P / 100) = A * P / 100 := by
    refine hexact (k * p) (-12) ?_ (by positivity) (by linarith) (by norm_num)
    rw [hk, hp]
    push_cast
    norm_num
    ring
  have h3 : round28 (A * P / 100 * D) = A * P / 100 * D := by
    refine hexact (k * p * d) (-14) ?_ (by positivity) (by linarith) (by norm_num)
    rw [hk, hp, hd]
    push_cast
    norm_num
    ring
  have h4 : round28 (A * P / 100 * D / 100) = A * P / 100 * D / 100 := by
    refine hexact (k * p * d) (-16) ?_ (by positivity) (by linarith) (by norm_num)
    rw [hk, hp, hd]
    push_cast
    norm_num
    ring
  rw [h1, h2, h3, h4]
  congr 3
  ring

end Quotable

/-- Rounding the quotient to 28 digits does not reach the next unit of eight places. -/
theorem floor_round28 {n m : ℤ} (hn : 0 ≤ n) (hn' : n ≤ 10 ^ 10) (hm : 0 < m) :
    ⌊round28 (n * 10 ^ (-2 : ℤ) / (m * 10 ^ (-8 : ℤ))) * 10 ^ 8⌋ =
      ⌊(n * 10 ^ (-2 : ℤ) / (m * 10 ^ (-8 : ℤ)) * 10 ^ 8 : ℚ)⌋ := by
  have hmQ : (0 : ℚ) < m := by exact_mod_cast hm
  have hnQ : (0 : ℚ) ≤ n := by exact_mod_cast hn
  have hnQ' : (n : ℚ) ≤ 10 ^ 10 := by exact_mod_cast hn'
  have hquot : (n * 10 ^ (-2 : ℤ) / (m * 10 ^ (-8 : ℤ)) * 10 ^ 8 : ℚ) = (n * 10 ^ 14 : ℤ) / m := by
    push_cast
    norm_num
    field_simp
    ring
  generalize hx : (n * 10 ^ (-2 : ℤ) / (m * 10 ^ (-8 : ℤ)) : ℚ) = x at hquot ⊢
  have hx0 : 0 ≤ x := by
    rw [← hx]
    positivity
  have hmul : x * m = n * 10 ^ 6 := by
    rw [← hx]
    norm_num
    field_simp
    ring
  by_cases hsmall : x ≤ 1 * 10 ^ (-9 : ℤ)
  · have hround : round28 x ≤ (1 : ℤ) * 10 ^ (-9 : ℤ) :=
      round28_le hx0 (by exact_mod_cast hsmall) (by norm_num) (by norm_num)
    have hround0 : 0 ≤ round28 x := round_nonneg hx0
    norm_num at hsmall hround
    rw [Int.floor_eq_zero_iff.mpr ⟨by positivity, by linarith⟩,
      Int.floor_eq_zero_iff.mpr ⟨by positivity, by linarith⟩]
  · rw [not_le] at hsmall
    have hnormal : 10 ^ Context.default.emin ≤ |x| := by
      rw [abs_of_nonneg hx0]
      refine le_trans ?_ hsmall.le
      rw [one_mul]
      exact zpow_le_zpow_right₀ (by norm_num) (by decide)
    have herror := abs_sub_round_le_mul hnormal
    have hprec : (1 - Context.default.prec : ℤ) = -27 := rfl
    rw [hprec, abs_of_nonneg hx0, abs_sub_comm] at herror
    rw [hquot]
    refine floor_eq_of_abs_sub_lt hm ?_ ?_
    · rw [← hquot, ← sub_mul, abs_mul, abs_of_pos (by norm_num : (0 : ℚ) < 10 ^ 8), lt_div_iff₀ hmQ]
      norm_num at herror ⊢
      nlinarith
    · rw [← hquot]
      have hle := Int.floor_le (x * 10 ^ 8)
      generalize ⌊x * 10 ^ 8⌋ = j at hle ⊢
      have hlow : (j * 10 ^ (-8 : ℤ) : ℚ) ≤ x := by
        norm_num
        linarith
      have hless : |x| < 10 ^ (17 : ℤ) := by
        have hm1 : (1 : ℚ) ≤ m := by exact_mod_cast hm
        rw [abs_of_nonneg hx0]
        norm_num
        nlinarith
      have hulp : Context.default.ulp x ≤ -8 := by
        refine ulp_le ?_ hless (by decide) (by decide)
        rintro rfl
        norm_num at hsmall
      have hround := le_round_of_le hlow hulp
      norm_num at hround ⊢
      linarith

variable {n m : ℤ}

/-- The division and the rounding down give no signal for a rate with eight places. -/
theorem exists_usdt {netRub rate : Decimal} (hnet : netRub.value = n * 10 ^ (-2 : ℤ)) (hn : 0 ≤ n)
    (hn' : n ≤ 10 ^ 10) (hrate : rate.value = m * 10 ^ (-8 : ℤ)) (hm : 0 < m) :
    ∃ q amountUsdt, Context.default.div netRub rate = .ok q ∧
      Context.default.quantize .down q (-8) = .ok amountUsdt ∧
      amountUsdt.value = exactUsdt netRub.value rate.value := by
  have hctx := proper_default
  have hnQ : (0 : ℚ) ≤ n := by exact_mod_cast hn
  have hnQ' : (n : ℚ) ≤ 10 ^ 10 := by exact_mod_cast hn'
  have hmQ : (1 : ℚ) ≤ m := by exact_mod_cast hm
  have hnonneg : 0 ≤ netRub.value / rate.value := by
    rw [hnet, hrate]
    positivity
  have hle : netRub.value / rate.value ≤ 1 * 10 ^ (16 : ℤ) := by
    rw [hnet, hrate, div_le_iff₀ (by positivity)]
    norm_num
    nlinarith
  have hrate0 : rate.coefficient ≠ 0 := by
    rw [Ne, ← value_eq_zero_iff, hrate]
    positivity
  obtain ⟨q, hq, hqv⟩ := exists_round28 (rounds_div hctx netRub hrate0) hnonneg
    (hle.trans (by norm_num))
  have hq0 : 0 ≤ q.value := by
    rw [hqv]
    exact round_nonneg hnonneg
  have hqle : q.value ≤ 1 * 10 ^ (16 : ℤ) := by
    rw [hqv]
    have hround : round28 (netRub.value / rate.value) ≤ (1 : ℤ) * 10 ^ (16 : ℤ) :=
      round_le (k := 17) hnonneg (by exact_mod_cast hle) (by norm_num) (by decide) (by decide)
    exact_mod_cast hround
  obtain ⟨amountUsdt, hu⟩ := quantize_isOk hctx .down (d := q) (e := -8) (by decide) (by decide)
    (by
      rw [abs_of_nonneg hq0]
      refine hqle.trans_lt ?_
      show (1 * 10 ^ (16 : ℤ) : ℚ) < 10 ^ (19 : ℤ)
      norm_num)
  refine ⟨q, amountUsdt, hq, hu, ?_⟩
  have hpow (x : ℚ) : x / 10 ^ (-8 : ℤ) = x * 10 ^ 8 := by
    rw [zpow_neg, div_inv_eq_mul]
    norm_num
  rw [value_quantize hctx hu, Rounding.toInt_down (by positivity), hpow, hqv, hnet, hrate,
    floor_round28 hn hn' hm, exactUsdt]
  norm_num
  ring

end

/-! ## The exact quote -/

section

variable {a a' p d d' net net' rate : ℚ}

theorem exactUsdt_mul_le (hrate : 0 < rate) : exactUsdt net rate * rate ≤ net := by
  have hle := Int.floor_le (net / rate * 10 ^ 8)
  have hle : exactUsdt net rate ≤ net / rate := by
    rw [exactUsdt, div_le_iff₀ (by norm_num)]
    exact hle
  exact (le_div_iff₀ hrate).mp hle

theorem lt_exactUsdt_mul (hrate : 0 < rate) :
    net < (exactUsdt net rate + 10 ^ (-8 : ℤ)) * rate := by
  have hlt := Int.lt_floor_add_one (net / rate * 10 ^ 8)
  have hlt : net / rate < exactUsdt net rate + 10 ^ (-8 : ℤ) := by
    rw [exactUsdt]
    generalize ⌊net / rate * 10 ^ 8⌋ = j at hlt ⊢
    norm_num at hlt ⊢
    linarith
  exact (div_lt_iff₀ hrate).mp hlt

theorem exactUsdt_mono (hrate : 0 < rate) (h : net ≤ net') :
    exactUsdt net rate ≤ exactUsdt net' rate := by
  unfold exactUsdt
  have hfloor : ⌊net / rate * 10 ^ 8⌋ ≤ ⌊net' / rate * 10 ^ 8⌋ := by
    refine Int.floor_le_floor ?_
    gcongr
  gcongr

theorem exactUsdt_units (hrate : 0 < rate) (hnet : 0 ≤ net) :
    ∃ j : ℕ, exactUsdt net rate = j * 10 ^ (-8 : ℤ) := by
  obtain ⟨j, hj⟩ := Int.eq_ofNat_of_zero_le
    (Int.floor_nonneg.mpr (by positivity : 0 ≤ net / rate * 10 ^ 8))
  refine ⟨j, ?_⟩
  rw [exactUsdt, hj, div_eq_mul_inv, zpow_neg]
  norm_num

/-- A higher discount does not raise the commission. -/
theorem exactCommission_anti (ha : 0 ≤ a) (hp : 0 ≤ p) (h : d ≤ d') :
    exactCommission a p d' ≤ exactCommission a p d := by
  have hle : nearestEven (a * p * (100 - d') / 10000 * 100) ≤
      nearestEven (a * p * (100 - d) / 10000 * 100) := by
    refine nearestEven_mono ?_
    gcongr
  have hle : (nearestEven (a * p * (100 - d') / 10000 * 100) : ℚ) ≤
      nearestEven (a * p * (100 - d) / 10000 * 100) := by exact_mod_cast hle
  unfold exactCommission
  linarith

/-- The commission does not grow faster than the amount: of each kopeck less than one is taken. -/
theorem sub_exactCommission_mono {n n' : ℤ} (ha : a = n * 10 ^ (-2 : ℤ))
    (ha' : a' = n' * 10 ^ (-2 : ℤ)) (hp : 0 ≤ p) (hp' : p < 100)
    (hd : 100 - d ≤ 100) (h : a ≤ a') :
    a - exactCommission a p d ≤ a' - exactCommission a' p d := by
  rw [hundredth] at ha ha'
  rcases h.eq_or_lt with rfl | hlt
  · exact le_rfl
  have hmul : p * (100 - d) < 10000 := by nlinarith
  have hle : nearestEven (a' * p * (100 - d) / 10000 * 100) ≤
      nearestEven (a * p * (100 - d) / 10000 * 100) + (n' - n) := by
    refine nearestEven_le_add ?_
    push_cast
    rw [ha, ha'] at hlt ⊢
    nlinarith
  have hle : (nearestEven (a' * p * (100 - d) / 10000 * 100) : ℚ) ≤
      nearestEven (a * p * (100 - d) / 10000 * 100) + (n' - n) := by exact_mod_cast hle
  unfold exactCommission
  rw [ha, ha'] at hle ⊢
  linarith

end

/-! ## The quote of a deposit -/

section

variable {settings : Settings} {amountRub amountRub' discountPercent discountPercent' : Decimal}

/-- With eight places in the settings, the code computes the exact quote. -/
theorem calculateDepositAmounts_eq (h : Quotable amountRub discountPercent)
    (hpercent : settings.depositCommissionPercent.Places 8)
    (hrate : settings.rubUsdtRate.Places 8) : ∃ commission amountUsdt,
    calculateDepositAmounts amountRub settings discountPercent = .ok (commission, amountUsdt) ∧
    commission.value = exactCommission amountRub.value settings.depositCommissionPercent.value
      discountPercent.value ∧
    amountUsdt.value = exactUsdt (amountRub.value - commission.value) settings.rubUsdtRate.value ∧
    0 ≤ commission.value ∧ commission.value ≤ amountRub.value := by
  obtain ⟨commission, netRub, hcalc, hc, hnet, ⟨c, hplaces⟩, hc0, hc1⟩ :=
    h.exists_commission settings
  obtain ⟨k, hk, -, hk1⟩ := h.exists_kopecks
  obtain ⟨m, hm⟩ := hrate
  have hplaces : commission.value = c * 10 ^ (-2 : ℤ) := hplaces
  have hm : settings.rubUsdtRate.value = m * 10 ^ (-8 : ℤ) := hm
  have hm0 : 0 < m := by
    have hpos := value_rate settings
    rw [hm] at hpos
    exact_mod_cast pos_of_mul_pos_left hpos (by positivity)
  have hn : netRub.value = (k - c : ℤ) * 10 ^ (-2 : ℤ) := by
    rw [hnet, hk, hplaces]
    push_cast
    ring
  have hle : c ≤ k := by
    rw [hplaces, hk, hundredth] at hc1
    have hle : (c : ℚ) ≤ k := by linarith
    exact_mod_cast hle
  have hnonneg : 0 ≤ c := by
    rw [hplaces, hundredth] at hc0
    have hle : (0 : ℚ) ≤ c := by linarith
    exact_mod_cast hle
  obtain ⟨q, amountUsdt, hq, hu, huv⟩ := exists_usdt hn (by omega) (by omega) hm hm0
  refine ⟨commission, amountUsdt, ?_, ?_, ?_, hc0, hc1⟩
  · rw [hcalc, hq]
    simp only [bind, Except.bind, hu]
    rfl
  · rw [hc, h.quotedCommission_eq hpercent]
  · rw [huv, hnet]

/-- The quote pays nothing that is not covered, and less than one unit too little. -/
theorem calculateDepositAmounts_exact (h : Quotable amountRub discountPercent)
    (hpercent : settings.depositCommissionPercent.Places 8)
    (hrate : settings.rubUsdtRate.Places 8) : ∃ commission amountUsdt,
    calculateDepositAmounts amountRub settings discountPercent = .ok (commission, amountUsdt) ∧
    commission.value = nearestEven (amountRub.value * settings.depositCommissionPercent.value *
      (100 - discountPercent.value) / 10000 * 100) / 100 ∧
    0 ≤ commission.value ∧ commission.value ≤ amountRub.value ∧
    (∃ j : ℕ, amountUsdt.value = j * 10 ^ (-8 : ℤ)) ∧
    amountUsdt.value * settings.rubUsdtRate.value ≤ amountRub.value - commission.value ∧
    amountRub.value - commission.value <
      (amountUsdt.value + 10 ^ (-8 : ℤ)) * settings.rubUsdtRate.value := by
  obtain ⟨commission, amountUsdt, hcalc, hc, hu, hc0, hc1⟩ :=
    calculateDepositAmounts_eq h hpercent hrate
  have hpos := value_rate settings
  refine ⟨commission, amountUsdt, hcalc, hc, hc0, hc1, ?_, ?_, ?_⟩
  · rw [hu]
    exact exactUsdt_units hpos (by linarith)
  · rw [hu]
    exact exactUsdt_mul_le hpos
  · rw [hu]
    exact lt_exactUsdt_mul hpos

/-- A higher amount leaves no less and gives no less USDT, and so does a higher discount. -/
theorem calculateDepositAmounts_mono (hpercent : settings.depositCommissionPercent.Places 8)
    (hrate : settings.rubUsdtRate.Places 8) :
    (∀ amountRub amountRub' discountPercent, Quotable amountRub discountPercent →
      Quotable amountRub' discountPercent → amountRub ≤ amountRub' →
      ∃ commission amountUsdt commission' amountUsdt',
        calculateDepositAmounts amountRub settings discountPercent =
          .ok (commission, amountUsdt) ∧
        calculateDepositAmounts amountRub' settings discountPercent =
          .ok (commission', amountUsdt') ∧
        amountRub.value - commission.value ≤ amountRub'.value - commission'.value ∧
        amountUsdt ≤ amountUsdt') ∧
    ∀ amountRub discountPercent discountPercent', Quotable amountRub discountPercent →
      Quotable amountRub discountPercent' → discountPercent ≤ discountPercent' →
      ∃ commission amountUsdt commission' amountUsdt',
        calculateDepositAmounts amountRub settings discountPercent =
          .ok (commission, amountUsdt) ∧
        calculateDepositAmounts amountRub settings discountPercent' =
          .ok (commission', amountUsdt') ∧
        commission' ≤ commission ∧ amountUsdt ≤ amountUsdt' := by
  have hpos := value_rate settings
  obtain ⟨hp0, hp1⟩ := value_percent settings
  constructor
  · intro amountRub amountRub' discountPercent h h' hle
    obtain ⟨c, u, hcalc, hc, hu, -, -⟩ := calculateDepositAmounts_eq h hpercent hrate
    obtain ⟨c', u', hcalc', hc', hu', -, -⟩ := calculateDepositAmounts_eq h' hpercent hrate
    obtain ⟨n, hn, -, -⟩ := h.exists_kopecks
    obtain ⟨n', hn', -, -⟩ := h'.exists_kopecks
    have hnet : amountRub.value - c.value ≤ amountRub'.value - c'.value := by
      rw [hc, hc']
      exact sub_exactCommission_mono hn hn' hp0 hp1 (by linarith [h.discount.1])
        (le_iff_value.mp hle)
    refine ⟨c, u, c', u', hcalc, hcalc', hnet, ?_⟩
    rw [le_iff_value, hu, hu']
    exact exactUsdt_mono hpos hnet
  · intro amountRub discountPercent discountPercent' h h' hle
    obtain ⟨c, u, hcalc, hc, hu, -, -⟩ := calculateDepositAmounts_eq h hpercent hrate
    obtain ⟨c', u', hcalc', hc', hu', -, -⟩ := calculateDepositAmounts_eq h' hpercent hrate
    have hcle : c'.value ≤ c.value := by
      rw [hc, hc']
      exact exactCommission_anti h.positive.le hp0 (le_iff_value.mp hle)
    refine ⟨c, u, c', u', hcalc, hcalc', le_iff_value.mpr hcle, ?_⟩
    rw [le_iff_value, hu, hu']
    exact exactUsdt_mono hpos (by linarith)

/-- Five per cent: of 100.10 roubles they are halfway between two kopecks. -/
def tieSettings : Settings where
  depositMinRub := .ofNat 1
  depositMaxRub := .ofNat 1000
  depositCommissionPercent := .ofUnits 50 (-1)
  rubUsdtRate := .ofUnits 953 (-1)

theorem places_tieSettings : tieSettings.depositCommissionPercent.Places 8 ∧
    tieSettings.rubUsdtRate.Places 8 := by
  refine ⟨⟨5 * 10 ^ 8, ?_⟩, ⟨953 * 10 ^ 7, ?_⟩⟩
  · norm_num [tieSettings]
  · norm_num [tieSettings]

theorem quotable_tie (d : ℕ) (hd : d ≤ 100) : Quotable (.ofUnits 10010 (-2)) (.ofNat d) := by
  have hdQ : (d : ℚ) ≤ 100 := by exact_mod_cast hd
  refine ⟨?_, ?_, ⟨10010, value_ofUnits _ _⟩, ?_, ⟨d * 100, ?_⟩⟩
  · norm_num
  · norm_num
  · exact ⟨by simp, by simpa using hdQ⟩
  · norm_num
    ring

/-- The commission of 5.005 roubles is rounded to 5.00. -/
theorem calculateDepositAmounts_exact_tie :
    calculateDepositAmounts (.ofUnits 10010 (-2)) tieSettings (.ofNat 0) =
      .ok (.ofUnits 500 (-2), .ofUnits 99790136 (-8)) ∧
    (ofUnits 99790136 (-8)).value * tieSettings.rubUsdtRate.value ≤
      (ofUnits 10010 (-2)).value - (ofUnits 500 (-2)).value := by
  have hquote : calculateDepositAmounts (.ofUnits 10010 (-2)) tieSettings (.ofNat 0) =
      .ok (.ofUnits 500 (-2), .ofUnits 99790136 (-8)) := by decide +kernel
  obtain ⟨commission, amountUsdt, hcalc, -, -, -, -, hle, -⟩ := calculateDepositAmounts_exact
    (quotable_tie 0 (by norm_num)) places_tieSettings.1 places_tieSettings.2
  cases hcalc.symm.trans hquote
  exact ⟨hquote, hle⟩

theorem calculateDepositAmounts_mono_tie : ∃ commission amountUsdt commission' amountUsdt',
    calculateDepositAmounts (.ofUnits 10010 (-2)) tieSettings (.ofNat 0) =
      .ok (commission, amountUsdt) ∧
    calculateDepositAmounts (.ofUnits 10010 (-2)) tieSettings (.ofNat 50) =
      .ok (commission', amountUsdt') ∧
    commission' ≤ commission ∧ amountUsdt ≤ amountUsdt' :=
  (calculateDepositAmounts_mono places_tieSettings.1 places_tieSettings.2).2 _ _ _
    (quotable_tie 0 (by norm_num)) (quotable_tie 50 (by norm_num)) (by decide)

end

end MoneyWay
