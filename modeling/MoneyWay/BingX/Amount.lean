import MoneyWay.BingX.Client
import MoneyWay.Library.Decimal.Normal
import MoneyWay.Library.Decimal.Text

/-!
# The amount of a transfer

How the client writes the amount: the number is read from its text, normalized and written
without an exponent.

## Main results

- `format_amount_exact` — the text is plain, has the value of the amount, and is the only one
-/

set_option autoImplicit false

namespace MoneyWay

open Decimal

/-- `_format_amount` -/
def formatAmount (amount : Decimal) : Except Error String :=
  match ofText? amount.toText with
  | none => .error (.decimal .invalidOperation)
  | some value =>
    if value ≤ .ofNat 0 then .error (.value "amount_usdt must be positive")
    else
      match Context.default.normalize value with
      | .error signal => .error (.decimal signal)
      | .ok normal => .ok (String.ofList normal.fixedPoint)

/-- A positive amount of a `NUMERIC(18, 8)` column, in any representation. -/
def StoredAmount (d : Decimal) : Prop :=
  ∃ n : Numeric 8, 0 < n ∧ n < 10 ^ 18 ∧ d.SameValue n.toDecimal

variable {d d' : Decimal}

theorem StoredAmount.value_eq (h : StoredAmount d) :
    ∃ n : ℤ, 0 < n ∧ n < 10 ^ 18 ∧ d.value = n * 10 ^ (-8 : ℤ) := by
  obtain ⟨n, hpos, hlt, hsame⟩ := h
  refine ⟨n, hpos, hlt, ?_⟩
  rw [sameValue_iff_value.mp hsame]
  exact value_ofUnits n (-8)

theorem StoredAmount.value_pos (h : StoredAmount d) : 0 < d.value := by
  obtain ⟨n, hpos, -, hvalue⟩ := h.value_eq
  have hn : (0 : ℚ) < n := by exact_mod_cast hpos
  rw [hvalue]
  positivity

theorem StoredAmount.normalize (h : StoredAmount d) :
    ∃ q, Context.default.normalize d = .ok q ∧ q.value = d.value ∧ q.negative = false ∧
      q.Normal := by
  have hpos := h.value_pos
  obtain ⟨n, hn, hlt, hvalue⟩ := h.value_eq
  have hk : |d.value| < 10 ^ (10 : ℤ) := by
    have hcast : (n : ℚ) < 10 ^ 18 := by exact_mod_cast hlt
    rw [abs_of_pos hpos, hvalue]
    norm_num at hcast ⊢
    linarith
  obtain ⟨q, hq, hqvalue, hsign, hnormal⟩ := Context.normalize_isOk Context.proper_default hn.ne'
    hvalue hk (by decide) (by decide) (by decide)
  exact ⟨q, hq, hqvalue, hsign.trans (sign_of_value_pos hpos), hnormal⟩

/-- The number is read back from its text, and normalized. -/
theorem StoredAmount.formatAmount_eq (h : StoredAmount d) :
    ∃ q : Decimal, formatAmount d = .ok (String.ofList q.fixedPoint) ∧ q.value = d.value ∧
      q.negative = false ∧ q.Normal := by
  obtain ⟨q, hq, hqvalue, hsign, hnormal⟩ := h.normalize
  have hpositive : ¬ d ≤ .ofNat 0 := by
    rw [le_iff_value, value_ofNat, not_le]
    exact_mod_cast h.value_pos
  refine ⟨q, ?_, hqvalue, hsign, hnormal⟩
  rw [formatAmount, ofText?_toText]
  dsimp only
  rw [if_neg hpositive, hq]

/-- An amount that is not positive is refused. -/
theorem formatAmount_nonpos (h : d.value ≤ 0) :
    formatAmount d = .error (.value "amount_usdt must be positive") := by
  have hle : d ≤ .ofNat 0 := by
    rw [le_iff_value, value_ofNat]
    exact_mod_cast h
  rw [formatAmount, ofText?_toText]
  exact if_pos hle

theorem value_of_ofText?_fixedPoint {q : Decimal} (hq : q.Normal) : ∃ p,
    ofText? q.fixedPoint = some p ∧ p.value = q.value := by
  refine ⟨_, ofText?_fixedPoint q hq.coefficient_ne_zero, ?_⟩
  have hpow : (10 : ℚ) ^ q.exponent = 10 ^ q.exponent.toNat * 10 ^ min q.exponent 0 := by
    rw [← zpow_natCast, ← zpow_add₀ (by norm_num)]
    congr 1
    omega
  rw [value, value, hpow, sign, sign]
  push_cast
  ring

/-- A stored amount is written in plain digits that have exactly its value, and two amounts are
written alike exactly when they are equal. -/
theorem format_amount_exact (h : StoredAmount d) :
    ∃ text, formatAmount d = .ok text ∧ Plain text.toList ∧
      (∃ q, ofText? text.toList = some q ∧ q.SameValue d) ∧
      ∀ d', StoredAmount d' → (formatAmount d' = formatAmount d ↔ d'.SameValue d) := by
  obtain ⟨q, hq, hvalue, hsign, hnormal⟩ := h.formatAmount_eq
  obtain ⟨p, hp, hpvalue⟩ := value_of_ofText?_fixedPoint hnormal
  refine ⟨_, hq, ?_, ⟨p, ?_, ?_⟩, ?_⟩
  · rw [String.toList_ofList]
    exact plain_fixedPoint hsign hnormal
  · rw [String.toList_ofList, hp]
  · rw [sameValue_iff_value, hpvalue, hvalue]
  · intro d' h'
    obtain ⟨q', hq', hvalue', hsign', hnormal'⟩ := h'.formatAmount_eq
    rw [sameValue_iff_value, hq, hq', ← hvalue, ← hvalue']
    constructor
    · intro heq
      have htexts : q'.fixedPoint = q.fixedPoint := String.ofList_injective (Except.ok.inj heq)
      obtain ⟨p', hp', hpvalue'⟩ := value_of_ofText?_fixedPoint hnormal'
      rw [htexts, hp] at hp'
      rw [← hpvalue, ← hpvalue', Option.some.inj hp']
    · intro heq
      rw [hnormal'.eq_of_value hnormal (hsign'.trans hsign.symm) heq]

example : (formatAmount ⟨false, 1250, -2⟩).toOption = some "12.5" := by decide +kernel

example : (formatAmount ⟨false, 1, 2⟩).toOption = some "100" := by decide +kernel

theorem storedAmount_twelve : StoredAmount ⟨false, 1250, -2⟩ :=
  ⟨1250000000, by decide, by decide, by decide +kernel⟩

/-- `12.50` and `12.500000` are written alike, `1E+2` is not. -/
theorem format_amount_exact_twelve : ∃ text, formatAmount ⟨false, 1250, -2⟩ = .ok text ∧
    Plain text.toList ∧
    formatAmount ⟨false, 12500000, -6⟩ = formatAmount ⟨false, 1250, -2⟩ ∧
    formatAmount ⟨false, 1, 2⟩ ≠ formatAmount ⟨false, 1250, -2⟩ := by
  have hlong : StoredAmount ⟨false, 12500000, -6⟩ :=
    ⟨1250000000, by decide, by decide, by decide +kernel⟩
  have hround : StoredAmount ⟨false, 1, 2⟩ :=
    ⟨10000000000, by decide, by decide, by decide +kernel⟩
  obtain ⟨text, htext, hplain, -, hiff⟩ := format_amount_exact storedAmount_twelve
  refine ⟨text, htext, hplain, (hiff _ hlong).mpr (by decide +kernel), fun he => ?_⟩
  exact absurd ((hiff _ hround).mp he) (by decide +kernel)

end MoneyWay
