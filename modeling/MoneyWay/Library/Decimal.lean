import Mathlib.Algebra.Group.Int.Defs
import Mathlib.Algebra.Group.Nat.Defs
import Mathlib.Data.Nat.Log

/-!
# Decimal floating point

Finite numbers `±coefficient · 10 ^ exponent` with the operations of the General
Decimal Arithmetic specification: a result is computed exactly and then rounded
half-even to the precision of the context. Conditions the default context traps
end the operation.

## Main definitions

- `Decimal` — a finite number, with its exponent as written
- `Decimal.Context.fix` — rounding of an exact result to a context
- `mul`, `div`, `add`, `sub`, `quantize` — the arithmetic of a context
-/

set_option autoImplicit false

/-- A finite decimal number. Numbers that are equal may differ in their exponent. -/
structure Decimal where
  negative : Bool
  coefficient : ℕ
  exponent : ℤ
  deriving DecidableEq, Repr

namespace Decimal

/-- The conditions the default context traps. -/
inductive Signal where
  | overflow
  | invalidOperation
  | divisionByZero
  deriving DecidableEq, Repr

inductive Rounding where
  | halfEven
  | down
  deriving DecidableEq, Repr

/-- The number of digits of a coefficient, one for zero. -/
def digits (n : ℕ) : ℕ := Nat.log 10 n + 1

/-- The exponent of the first digit. -/
def adjusted (d : Decimal) : ℤ := d.exponent + digits d.coefficient - 1

/-- The value in units of `10 ^ e`, exact when `e` is at most the exponent. -/
def scaled (d : Decimal) (e : ℤ) : ℤ :=
  let n : ℤ := d.coefficient * 10 ^ (d.exponent - e).toNat
  if d.negative then -n else n

/-- A whole number of units of `10 ^ e`. -/
def ofUnits (n e : ℤ) : Decimal := ⟨decide (n < 0), n.natAbs, e⟩

def ofNat (n : ℕ) : Decimal := ⟨false, n, 0⟩

/-- Comparison is by value. -/
instance : LT Decimal :=
  ⟨fun a b => a.scaled (min a.exponent b.exponent) < b.scaled (min a.exponent b.exponent)⟩

instance : LE Decimal :=
  ⟨fun a b => a.scaled (min a.exponent b.exponent) ≤ b.scaled (min a.exponent b.exponent)⟩

instance (a b : Decimal) : Decidable (a < b) := Int.decLt _ _

instance (a b : Decimal) : Decidable (a ≤ b) := Int.decLe _ _

theorem not_lt_of_le {a b : Decimal} (h : a ≤ b) : ¬ b < a := by
  intro hlt
  have hlt : b.scaled (min b.exponent a.exponent) < a.scaled (min b.exponent a.exponent) := hlt
  rw [min_comm] at hlt
  exact lt_irrefl _ (hlt.trans_le h)

/-- Equality by value. -/
def SameValue (a b : Decimal) : Prop :=
  a.scaled (min a.exponent b.exponent) = b.scaled (min a.exponent b.exponent)

instance (a b : Decimal) : Decidable (a.SameValue b) := Int.instDecidableEq _ _

/-- `c / 10 ^ k` rounded to a whole number. -/
def roundShift (r : Rounding) (c k : ℕ) : ℕ :=
  let q := c / 10 ^ k
  match r with
  | .down => q
  | .halfEven =>
    let twice := 2 * (c % 10 ^ k)
    if 10 ^ k < twice ∨ twice = 10 ^ k ∧ q % 2 = 1 then q + 1 else q

/-- Precision and exponent range. -/
structure Context where
  prec : ℕ
  emin : ℤ
  emax : ℤ

namespace Context

def etiny (ctx : Context) : ℤ := ctx.emin - ctx.prec + 1

def etop (ctx : Context) : ℤ := ctx.emax - ctx.prec + 1

/-- Round an exact result to the context. -/
def fix (ctx : Context) (d : Decimal) : Except Signal Decimal :=
  if d.coefficient = 0 then
    .ok { d with exponent := min (max d.exponent ctx.etiny) ctx.emax }
  else if ctx.etop < digits d.coefficient + d.exponent - ctx.prec then .error .overflow
  else
    let expMin := max (digits d.coefficient + d.exponent - ctx.prec) ctx.etiny
    if d.exponent < expMin then
      let c := roundShift .halfEven d.coefficient (expMin - d.exponent).toNat
      -- rounding up may carry into one digit more
      if ctx.prec < digits c then
        if ctx.etop < expMin + 1 then .error .overflow
        else .ok ⟨d.negative, c / 10, expMin + 1⟩
      else .ok ⟨d.negative, c, expMin⟩
    else .ok d

def mul (ctx : Context) (a b : Decimal) : Except Signal Decimal :=
  ctx.fix ⟨a.negative != b.negative, a.coefficient * b.coefficient, a.exponent + b.exponent⟩

/-- Drop trailing zeros as long as the exponent is below `ideal`. -/
def stripTo (ideal : ℤ) : ℕ → ℕ → ℤ → ℕ × ℤ
  | 0, c, e => (c, e)
  | fuel + 1, c, e => if e < ideal ∧ c % 10 = 0 then stripTo ideal fuel (c / 10) (e + 1) else (c, e)

/-- Division: one digit more than the precision, made sticky when inexact. -/
def div (ctx : Context) (a b : Decimal) : Except Signal Decimal :=
  let negative := a.negative != b.negative
  if b.coefficient = 0 then
    .error (if a.coefficient = 0 then .invalidOperation else .divisionByZero)
  else if a.coefficient = 0 then ctx.fix ⟨negative, 0, a.exponent - b.exponent⟩
  else
    let shift : ℤ := digits b.coefficient - digits a.coefficient + ctx.prec + 1
    let exponent := a.exponent - b.exponent - shift
    let n := a.coefficient * 10 ^ shift.toNat
    let m := b.coefficient * 10 ^ (-shift).toNat
    if n % m ≠ 0 then
      let q := n / m
      ctx.fix ⟨negative, if q % 5 = 0 then q + 1 else q, exponent⟩
    else
      let r := stripTo (a.exponent - b.exponent) shift.toNat (n / m) exponent
      ctx.fix ⟨negative, r.1, r.2⟩

def add (ctx : Context) (a b : Decimal) : Except Signal Decimal :=
  let e := min a.exponent b.exponent
  let n := a.scaled e + b.scaled e
  ctx.fix ⟨if n = 0 then a.negative && b.negative else decide (n < 0), n.natAbs, e⟩

def sub (ctx : Context) (a b : Decimal) : Except Signal Decimal :=
  ctx.add a { b with negative := !b.negative }

/-- Round to the exponent `e`; the result must fit the precision. -/
def quantize (ctx : Context) (r : Rounding) (d : Decimal) (e : ℤ) : Except Signal Decimal :=
  if e < ctx.etiny ∨ ctx.emax < e then .error .invalidOperation
  else if d.coefficient = 0 then ctx.fix ⟨d.negative, 0, e⟩
  else if ctx.emax < d.adjusted ∨ (ctx.prec : ℤ) < d.adjusted - e + 1 then
    .error .invalidOperation
  else
    let c := if e ≤ d.exponent then d.coefficient * 10 ^ (d.exponent - e).toNat
      else roundShift r d.coefficient (e - d.exponent).toNat
    let ans : Decimal := ⟨d.negative, c, e⟩
    if ctx.emax < ans.adjusted ∨ ctx.prec < digits c then .error .invalidOperation
    else ctx.fix ans

/-- 28 digits, half-even. -/
def default : Context := ⟨28, -999999, 999999⟩

variable {ctx : Context} {r : Rounding} {d q : Decimal} {e : ℤ}

/-- A number that fits the precision keeps its exponent. -/
theorem fix_eq (hq : ctx.fix d = .ok q) (hprec : digits d.coefficient ≤ ctx.prec)
    (hmin : ctx.etiny ≤ d.exponent) (hmax : d.exponent ≤ ctx.emax) : q = d := by
  unfold fix at hq
  split at hq
  · rw [max_eq_left hmin, min_eq_left hmax] at hq
    exact (Except.ok.inj hq).symm
  split at hq
  · cases hq
  have hle : ¬ d.exponent < max (digits d.coefficient + d.exponent - ctx.prec) ctx.etiny := by
    omega
  rw [if_neg hle] at hq
  exact (Except.ok.inj hq).symm

theorem exponent_quantize (h : ctx.quantize r d e = .ok q) (hprec : 1 ≤ ctx.prec) :
    q.exponent = e := by
  unfold quantize at h
  split at h
  · cases h
  next hrange =>
  rw [not_or, not_lt, not_lt] at hrange
  obtain ⟨hmin, hmax⟩ := hrange
  split at h
  · rw [fix_eq h (by simpa [digits] using hprec) hmin hmax]
  split at h
  · cases h
  dsimp only at h
  generalize (if e ≤ d.exponent then _ else _ : ℕ) = c at h
  split at h
  · cases h
  next hfits =>
  rw [not_or, not_lt, not_lt] at hfits
  rw [fix_eq h hfits.2 hmin hmax]

end Context

end Decimal
