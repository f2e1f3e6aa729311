import Mathlib.Algebra.Order.Round
import Mathlib.Tactic.FieldSimp
import Mathlib.Tactic.Linarith
import Mathlib.Tactic.Positivity
import Mathlib.Tactic.Ring

/-!
# Rounding to even

The nearest whole number, where a number halfway between two is rounded to the even one.

## Main results

- `nearestEven_eq_iff` — what the rounded number is
- `nearestEven_mono`, `nearestEven_neg` — it keeps the order and the sign
- `nearestEven_eq_of_between` — it is the same between two multiples of one half
-/

set_option autoImplicit false

namespace NearestEven

section

variable {K : Type*} [Field K] [LinearOrder K] [IsStrictOrderedRing K] [FloorRing K]

/-- The nearest whole number, the even one of two. -/
def nearestEven (x : K) : ℤ :=
  if x - ⌊x⌋ < 1 / 2 then ⌊x⌋
  else if 1 / 2 < x - ⌊x⌋ then ⌊x⌋ + 1
  else if ⌊x⌋ % 2 = 0 then ⌊x⌋ else ⌊x⌋ + 1

variable {x y : K} {n : ℤ}

theorem abs_sub_nearestEven_le (x : K) : |x - nearestEven x| ≤ 1 / 2 := by
  have hlow := Int.floor_le x
  have hhigh := Int.lt_floor_add_one x
  unfold nearestEven
  rw [abs_le]
  split_ifs <;> push_cast <;> constructor <;> linarith

/-- A number that is nearer than any other, or even and as near. -/
theorem nearestEven_eq_iff :
    nearestEven x = n ↔ |x - n| < 1 / 2 ∨ |x - n| = 1 / 2 ∧ n % 2 = 0 := by
  constructor
  · rintro rfl
    rcases (abs_sub_nearestEven_le x).lt_or_eq with hlt | heq
    · exact .inl hlt
    · refine .inr ⟨heq, ?_⟩
      unfold nearestEven at heq ⊢
      split_ifs at heq ⊢ with hlow hhigh heven
      · have hfloor := Int.floor_le x
        rw [abs_of_nonneg (by linarith)] at heq
        linarith
      · have hfloor := Int.lt_floor_add_one x
        push_cast at heq
        rw [abs_of_nonpos (by linarith)] at heq
        linarith
      · exact heven
      · omega
  · have hlow := Int.floor_le x
    have hhigh := Int.lt_floor_add_one x
    -- the floor is `n` or the number before it
    intro h
    have hle : |x - n| ≤ 1 / 2 := h.elim le_of_lt fun h => h.1.le
    obtain ⟨hleft, hright⟩ := abs_le.mp hle
    have hfloor : ⌊x⌋ = n ∨ ⌊x⌋ + 1 = n := by
      have h1 : (⌊x⌋ : K) < n + 1 := by linarith
      have h2 : (n : K) < ⌊x⌋ + 2 := by linarith
      have h1 : ⌊x⌋ < n + 1 := by exact_mod_cast h1
      have h2 : n < ⌊x⌋ + 2 := by exact_mod_cast h2
      omega
    unfold nearestEven
    rcases hfloor with hn | hn
    · subst hn
      rw [abs_of_nonneg (by linarith)] at h
      rcases h with hlt | ⟨heq, heven⟩
      · rw [if_pos hlt]
      · rw [if_neg heq.not_lt, if_neg heq.not_gt, if_pos heven]
    · have hcast : (n : K) = ⌊x⌋ + 1 := by
        rw [← hn]
        push_cast
        rfl
      rw [hcast, abs_of_nonpos (by linarith)] at h
      rcases h with hlt | ⟨heq, heven⟩
      · rw [if_neg (by linarith), if_pos (by linarith), hn]
      · rw [if_neg (by linarith), if_neg (by linarith), if_neg (by omega), hn]

@[simp] theorem nearestEven_intCast (n : ℤ) : nearestEven (n : K) = n :=
  nearestEven_eq_iff.mpr (.inl (by simp))

@[simp] theorem nearestEven_zero : nearestEven (0 : K) = 0 := by
  simpa using nearestEven_intCast (K := K) 0

theorem nearestEven_neg (x : K) : nearestEven (-x) = -nearestEven x := by
  have habs : |(-x) - ((-nearestEven x : ℤ) : K)| = |x - nearestEven x| := by
    rw [← abs_neg]
    congr 1
    push_cast
    ring
  rw [nearestEven_eq_iff, habs]
  exact (nearestEven_eq_iff.mp rfl).imp_right fun h => ⟨h.1, by omega⟩

theorem nearestEven_mono (h : x ≤ y) : nearestEven x ≤ nearestEven y := by
  by_contra hlt
  rw [not_le] at hlt
  have hle : (nearestEven y : K) + 1 ≤ nearestEven x := by exact_mod_cast hlt
  obtain ⟨hx, -⟩ := abs_le.mp (abs_sub_nearestEven_le x)
  obtain ⟨-, hy⟩ := abs_le.mp (abs_sub_nearestEven_le y)
  -- both are halfway between the two, so both are rounded to the even one
  have hxy : x = y := by linarith
  rw [hxy] at hlt
  exact lt_irrefl _ hlt

theorem nearestEven_le_of_le (h : x ≤ n) : nearestEven x ≤ n := by
  simpa using nearestEven_mono h

theorem le_nearestEven_of_le (h : (n : K) ≤ x) : n ≤ nearestEven x := by
  simpa using nearestEven_mono h

/-- Between two neighbouring multiples of one half the rounded number does not change. -/
theorem nearestEven_eq_of_between (hx : (n : K) < 2 * x) (hx' : 2 * x < n + 1)
    (hy : (n : K) < 2 * y) (hy' : 2 * y < n + 1) : nearestEven x = nearestEven y := by
  have hnear (z : K) (hz : (n : K) < 2 * z) (hz' : 2 * z < n + 1) :
      nearestEven z = (n + 1) / 2 := by
    refine nearestEven_eq_iff.mpr (.inl (abs_lt.mpr ?_))
    rcases Int.even_or_odd' n with ⟨k, hk | hk⟩
    · have hdiv : (n + 1) / 2 = k := by omega
      rw [hdiv]
      have hcast : (n : K) = 2 * k := by exact_mod_cast hk
      constructor <;> linarith
    · have hdiv : (n + 1) / 2 = k + 1 := by omega
      rw [hdiv]
      have hcast : (n : K) = 2 * k + 1 := by exact_mod_cast hk
      push_cast
      constructor <;> linarith
  rw [hnear x hx hx', hnear y hy hy']

/-- A step that is smaller than a whole number `n` moves the rounded number by at most `n`. -/
theorem nearestEven_le_add (h : y < x + n) : nearestEven y ≤ nearestEven x + n := by
  by_contra hlt
  rw [not_le] at hlt
  have hle : (nearestEven x : K) + n + 1 ≤ nearestEven y := by exact_mod_cast hlt
  obtain ⟨-, hx⟩ := abs_le.mp (abs_sub_nearestEven_le x)
  obtain ⟨hy, -⟩ := abs_le.mp (abs_sub_nearestEven_le y)
  linarith

/-- The whole part of a quotient of whole numbers is not reached by anything nearer than the
quotient can be. -/
theorem floor_eq_of_abs_sub_lt {a b : ℤ} {z : K} (hb : 0 < b) (h : |z - a / b| < 1 / b)
    (hz : (⌊(a / b : K)⌋ : K) ≤ z) : ⌊z⌋ = ⌊(a / b : K)⌋ := by
  have hbK : (0 : K) < b := by exact_mod_cast hb
  rw [Int.floor_eq_iff]
  refine ⟨hz, ?_⟩
  -- the distance from the quotient to the next whole number is a multiple of `1 / b`
  have hnext : a + 1 ≤ (⌊(a / b : K)⌋ + 1) * b := by
    have hlt := Int.lt_floor_add_one (a / b : K)
    rw [div_lt_iff₀ hbK] at hlt
    have hlt : a < (⌊(a / b : K)⌋ + 1) * b := by exact_mod_cast hlt
    omega
  have hnext : (a : K) + 1 ≤ (⌊(a / b : K)⌋ + 1) * b := by exact_mod_cast hnext
  have hnext : (a : K) / b + 1 / b ≤ ⌊(a / b : K)⌋ + 1 := by
    rw [← add_div, div_le_iff₀ hbK]
    exact hnext
  have hright := (abs_lt.mp h).2
  linarith

end

end NearestEven
