import Mathlib.Algebra.Order.Ring.Int
import Mathlib.Data.List.TakeWhile
import MoneyWay.Library.Decimal

/-!
# Decimal numbers as text

The text `str` gives of a number, the number a text stands for, and the format `f`, which has no
exponent.

## Main definitions

- `toText`, `ofText?` — to a scientific string, and back
- `fixedPoint` — the format `f`
- `Plain` — digits with at most one point, and nothing to leave out after it

## Main results

- `ofText?_toText` — a text stands for the number it was made of, with its exponent
- `ofText?_fixedPoint` — as does the format `f`, up to a positive exponent
-/

set_option autoImplicit false

namespace Decimal

/-! ## Writing -/

/-- The digits before and after the point, when the point comes after the first `dot` digits. -/
def places (ds : List Char) (dot : ℤ) : List Char × List Char :=
  if dot ≤ 0 then (['0'], List.replicate (-dot).toNat '0' ++ ds)
  else if ds.length ≤ dot then (ds ++ List.replicate (dot - ds.length).toNat '0', [])
  else (ds.take dot.toNat, ds.drop dot.toNat)

def joinPoint (p : List Char × List Char) : List Char :=
  p.1 ++ if p.2 = [] then [] else '.' :: p.2

def signText (negative : Bool) : List Char := if negative then ['-'] else []

/-- A whole number with its sign. -/
def signedText (n : ℤ) : List Char := (if n < 0 then '-' else '+') :: Nat.toDigits 10 n.natAbs

/-- `str` of a number. -/
def toText (d : Decimal) : List Char :=
  let ds := Nat.toDigits 10 d.coefficient
  let leftdigits : ℤ := d.exponent + ds.length
  let dot := if d.exponent ≤ 0 ∧ -6 < leftdigits then leftdigits else 1
  signText d.negative ++ joinPoint (places ds dot) ++
    if leftdigits = dot then [] else 'E' :: signedText (leftdigits - dot)

/-- `format(d, "f")` -/
def fixedPoint (d : Decimal) : List Char :=
  let d := if d.coefficient = 0 ∧ 0 < d.exponent then { d with exponent := 0 } else d
  let ds := Nat.toDigits 10 d.coefficient
  signText d.negative ++ joinPoint (places ds (d.exponent + ds.length))

/-! ## Reading -/

def signOf : List Char → Bool × List Char
  | '-' :: cs => (true, cs)
  | '+' :: cs => (false, cs)
  | cs => (false, cs)

/-- A whole number, which may have a sign. -/
def intOf? (cs : List Char) : Option ℤ :=
  let (negative, ds) := signOf cs
  if ds = [] ∨ ¬ ds.all Char.isDigit then none
  else
    let n : ℤ := Nat.ofDigitChars 10 ds 0
    some (if negative then -n else n)

/-- The digits after a point, and what follows them. -/
def fractionOf : List Char → List Char × List Char
  | '.' :: cs => (cs.takeWhile Char.isDigit, cs.dropWhile Char.isDigit)
  | cs => ([], cs)

def exponentOf? : List Char → Option ℤ
  | [] => some 0
  | c :: cs => if c = 'e' ∨ c = 'E' then intOf? cs else none

/-- The finite number a text stands for. -/
def ofText? (cs : List Char) : Option Decimal :=
  let (negative, rest) := signOf cs
  let intpart := rest.takeWhile Char.isDigit
  let (fracpart, rest) := fractionOf (rest.dropWhile Char.isDigit)
  if intpart = [] ∧ fracpart = [] then none
  else
    (exponentOf? rest).map fun exponent =>
      ⟨negative, Nat.ofDigitChars 10 (intpart ++ fracpart) 0, exponent - fracpart.length⟩

/-! ## Digits -/

/-- Nothing but digits. -/
def Digits (ds : List Char) : Prop := ∀ c ∈ ds, c.isDigit = true

variable {ds ds' cs : List Char} {dot : ℤ}

theorem Digits.nil : Digits [] := fun _ hc => absurd hc List.not_mem_nil

theorem Digits.append (h : Digits ds) (h' : Digits ds') : Digits (ds ++ ds') := by
  intro c hc
  cases List.mem_append.mp hc with
  | inl hmem => exact h c hmem
  | inr hmem => exact h' c hmem

theorem Digits.zeros (n : ℕ) : Digits (List.replicate n '0') := by
  intro c hc
  rw [List.eq_of_mem_replicate hc]
  rfl

theorem Digits.toDigits (n : ℕ) : Digits (Nat.toDigits 10 n) :=
  fun _ hc => Nat.isDigit_of_mem_toDigits (by decide) (by decide) hc

theorem Digits.takeWhile_append (h : Digits ds) (hcs : ∀ c ∈ cs.head?, c.isDigit = false) :
    (ds ++ cs).takeWhile Char.isDigit = ds ∧ (ds ++ cs).dropWhile Char.isDigit = cs := by
  rw [List.takeWhile_append_of_pos h, List.dropWhile_append_of_pos h]
  cases cs with
  | nil => exact ⟨List.append_nil ds, rfl⟩
  | cons c cs =>
    have hc : c.isDigit = false := hcs c rfl
    have hne : ¬ c.isDigit = true := by rw [hc]; exact Bool.false_ne_true
    rw [List.takeWhile_cons_of_neg hne, List.dropWhile_cons_of_neg hne]
    exact ⟨List.append_nil ds, rfl⟩

/-- A digit is no sign. -/
theorem signOf_digits (h : Digits ds) (hne : ds ≠ []) (cs : List Char) :
    signOf (ds ++ cs) = (false, ds ++ cs) := by
  cases ds with
  | nil => exact absurd rfl hne
  | cons c ds =>
    have hc : c.isDigit = true := h c List.mem_cons_self
    rw [List.cons_append, signOf.eq_3]
    · intro cs' he
      rw [(List.cons.inj he).1] at hc
      exact absurd hc (by decide)
    · intro cs' he
      rw [(List.cons.inj he).1] at hc
      exact absurd hc (by decide)

theorem signOf_signText (negative : Bool) (h : Digits ds) (hne : ds ≠ []) (cs : List Char) :
    signOf (signText negative ++ (ds ++ cs)) = (negative, ds ++ cs) := by
  cases negative with
  | false => exact signOf_digits h hne cs
  | true => rfl

theorem intOf?_signedText (n : ℤ) : intOf? (signedText n) = some n := by
  have hdigits : (Nat.toDigits 10 n.natAbs).all Char.isDigit = true :=
    List.all_eq_true.mpr (Digits.toDigits _)
  have hread : ¬ (Nat.toDigits 10 n.natAbs = [] ∨
      ¬ (Nat.toDigits 10 n.natAbs).all Char.isDigit = true) := by
    rw [not_or, not_not]
    exact ⟨Nat.toDigits_ne_nil, hdigits⟩
  by_cases hn : n < 0
  · have hsign : signOf (signedText n) = (true, Nat.toDigits 10 n.natAbs) := by
      rw [signedText, if_pos hn]
      rfl
    rw [intOf?, hsign]
    dsimp only
    rw [if_neg hread, Nat.ofDigitChars_ten_toDigits, if_pos rfl]
    exact congrArg some (by omega)
  · have hsign : signOf (signedText n) = (false, Nat.toDigits 10 n.natAbs) := by
      rw [signedText, if_neg hn]
      rfl
    rw [intOf?, hsign]
    dsimp only
    rw [if_neg hread, Nat.ofDigitChars_ten_toDigits, if_neg Bool.false_ne_true]
    exact congrArg some (by omega)

/-! ## The point -/

theorem digits_places (h : Digits ds) (dot : ℤ) :
    Digits (places ds dot).1 ∧ Digits (places ds dot).2 := by
  rw [places]
  by_cases hdot : dot ≤ 0
  · rw [if_pos hdot]
    exact ⟨Digits.zeros 1, (Digits.zeros _).append h⟩
  · rw [if_neg hdot]
    by_cases hlength : ds.length ≤ dot
    · rw [if_pos hlength]
      exact ⟨h.append (Digits.zeros _), Digits.nil⟩
    · rw [if_neg hlength]
      exact ⟨fun c hc => h c (List.mem_of_mem_take hc), fun c hc => h c (List.mem_of_mem_drop hc)⟩

theorem places_ne_nil (hne : ds ≠ []) (dot : ℤ) : (places ds dot).1 ≠ [] := by
  have hlength : 0 < ds.length := List.length_pos_iff.mpr hne
  rw [places]
  by_cases hdot : dot ≤ 0
  · rw [if_pos hdot]
    exact List.cons_ne_nil _ _
  · rw [if_neg hdot]
    by_cases hle : ds.length ≤ dot
    · rw [if_pos hle]
      exact List.append_ne_nil_of_left_ne_nil hne _
    · rw [if_neg hle]
      apply List.ne_nil_of_length_pos
      rw [List.length_take]
      omega

/-- A point within the digits or before them: their value stays, and the fraction has the rest. -/
theorem places_le (ds : List Char) (dot : ℤ) (h : dot ≤ ds.length) :
    Nat.ofDigitChars 10 ((places ds dot).1 ++ (places ds dot).2) 0 = Nat.ofDigitChars 10 ds 0 ∧
      ((places ds dot).2.length : ℤ) = ds.length - dot := by
  rw [places]
  by_cases hdot : dot ≤ 0
  · rw [if_pos hdot]
    constructor
    · rw [Nat.ofDigitChars_append, Nat.ofDigitChars_append]
      show Nat.ofDigitChars 10 ds (Nat.ofDigitChars 10 _ 0) = _
      rw [Nat.ofDigitChars_replicate_zero, Nat.mul_zero]
    · rw [List.length_append, List.length_replicate]
      omega
  · rw [if_neg hdot]
    by_cases hle : ds.length ≤ dot
    · obtain rfl : dot = ds.length := by omega
      rw [if_pos hle]
      simp
    · rw [if_neg hle, List.take_append_drop, List.length_drop]
      refine ⟨rfl, ?_⟩
      omega

/-- A point after the digits: zeros fill the gap. -/
theorem places_ge (ds : List Char) (dot : ℤ) (h : ds.length ≤ dot) (hne : ds ≠ []) :
    Nat.ofDigitChars 10 ((places ds dot).1 ++ (places ds dot).2) 0 =
      Nat.ofDigitChars 10 ds 0 * 10 ^ (dot - ds.length).toNat ∧ (places ds dot).2 = [] := by
  have hlength : 0 < ds.length := List.length_pos_iff.mpr hne
  have hdot : ¬ dot ≤ 0 := by omega
  rw [places, if_neg hdot, if_pos h, List.append_nil]
  refine ⟨?_, rfl⟩
  rw [Nat.ofDigitChars_append, Nat.ofDigitChars_replicate_zero, Nat.mul_comm]

/-! ## Reading back -/

/-- What is read of digits with a point, and of the exponent after them. -/
theorem ofText?_joinPoint (negative : Bool) {intpart fracpart : List Char} (tail : List Char)
    {exponent : ℤ} (hint : Digits intpart) (hne : intpart ≠ []) (hfrac : Digits fracpart)
    (htail : exponentOf? tail = some exponent)
    (hend : ∀ c ∈ tail.head?, c.isDigit = false ∧ c ≠ '.') :
    ofText? (signText negative ++ joinPoint (intpart, fracpart) ++ tail) =
      some ⟨negative, Nat.ofDigitChars 10 (intpart ++ fracpart) 0, exponent - fracpart.length⟩ := by
  have hno : ¬ (intpart = [] ∧ fracpart = []) := fun h => hne h.1
  have hstop : ∀ c ∈ tail.head?, c.isDigit = false := fun c hc => (hend c hc).1
  by_cases hempty : fracpart = []
  · have hsign : signOf (signText negative ++ joinPoint (intpart, fracpart) ++ tail) =
        (negative, intpart ++ tail) := by
      rw [joinPoint, if_pos hempty, List.append_nil, List.append_assoc]
      exact signOf_signText negative hint hne tail
    have hfraction : fractionOf tail = (fracpart, tail) := by
      rw [hempty]
      cases tail with
      | nil => rfl
      | cons c cs =>
        rw [fractionOf.eq_2]
        intro cs' he
        exact (hend c rfl).2 (List.cons.inj he).1
    obtain ⟨htake, hdrop⟩ := hint.takeWhile_append hstop
    rw [ofText?, hsign]
    dsimp only
    rw [htake, hdrop, hfraction]
    dsimp only
    rw [if_neg hno, htail]
    rfl
  · have hsign : signOf (signText negative ++ joinPoint (intpart, fracpart) ++ tail) =
        (negative, intpart ++ '.' :: (fracpart ++ tail)) := by
      rw [joinPoint, if_neg hempty, List.append_assoc, List.append_assoc]
      exact signOf_signText negative hint hne _
    have hpoint : ∀ c ∈ ('.' :: (fracpart ++ tail)).head?, c.isDigit = false := by
      intro c hc
      cases hc
      rfl
    obtain ⟨htake, hdrop⟩ := hint.takeWhile_append hpoint
    obtain ⟨htake', hdrop'⟩ := hfrac.takeWhile_append hstop
    have hfraction : fractionOf ('.' :: (fracpart ++ tail)) = (fracpart, tail) := by
      rw [fractionOf, htake', hdrop']
    rw [ofText?, hsign]
    dsimp only
    rw [htake, hdrop, hfraction]
    dsimp only
    rw [if_neg hno, htail]
    rfl

/-- The text of a number stands for it, with its exponent. -/
theorem ofText?_toText (d : Decimal) : ofText? d.toText = some d := by
  have hdigits := Digits.toDigits d.coefficient
  have hne : Nat.toDigits 10 d.coefficient ≠ [] := Nat.toDigits_ne_nil
  have hpos : 0 < (Nat.toDigits 10 d.coefficient).length := List.length_pos_iff.mpr hne
  rw [toText]
  generalize hdot : (if d.exponent ≤ 0 ∧
      -6 < d.exponent + ((Nat.toDigits 10 d.coefficient).length : ℤ)
    then d.exponent + ((Nat.toDigits 10 d.coefficient).length : ℤ) else 1) = dot
  have hle : dot ≤ (Nat.toDigits 10 d.coefficient).length := by
    rw [← hdot]
    split <;> omega
  obtain ⟨hint, hfrac⟩ := digits_places hdigits dot
  obtain ⟨hvalue, hlength⟩ := places_le (Nat.toDigits 10 d.coefficient) dot hle
  by_cases he : d.exponent + ((Nat.toDigits 10 d.coefficient).length : ℤ) = dot
  · rw [if_pos he, ofText?_joinPoint d.negative [] hint (places_ne_nil hne dot) hfrac rfl
      fun c hc => absurd hc (Option.not_mem_none c), hvalue, Nat.ofDigitChars_ten_toDigits, hlength]
    have hexponent :
        0 - (((Nat.toDigits 10 d.coefficient).length : ℤ) - dot) = d.exponent := by omega
    rw [hexponent]
  · have htail : ∀ c ∈ ('E' :: signedText
        (d.exponent + ((Nat.toDigits 10 d.coefficient).length : ℤ) - dot)).head?,
        c.isDigit = false ∧ c ≠ '.' := by
      intro c hc
      cases hc
      decide
    have hexp := intOf?_signedText (d.exponent + ((Nat.toDigits 10 d.coefficient).length : ℤ) - dot)
    rw [if_neg he, ofText?_joinPoint d.negative ('E' :: signedText _) hint (places_ne_nil hne dot)
      hfrac hexp htail, hvalue, Nat.ofDigitChars_ten_toDigits, hlength]
    have hexponent : d.exponent + ((Nat.toDigits 10 d.coefficient).length : ℤ) - dot -
        (((Nat.toDigits 10 d.coefficient).length : ℤ) - dot) = d.exponent := by omega
    rw [hexponent]

/-- The format `f` stands for the same number; a positive exponent is written as zeros. -/
theorem ofText?_fixedPoint (d : Decimal) (hd : d.coefficient ≠ 0) : ofText? d.fixedPoint =
    some ⟨d.negative, d.coefficient * 10 ^ d.exponent.toNat, min d.exponent 0⟩ := by
  have hdigits := Digits.toDigits d.coefficient
  have hne : Nat.toDigits 10 d.coefficient ≠ [] := Nat.toDigits_ne_nil
  rw [fixedPoint, if_neg fun h => hd h.1]
  obtain ⟨hint, hfrac⟩ := digits_places hdigits
    (d.exponent + ((Nat.toDigits 10 d.coefficient).length : ℤ))
  have hread := ofText?_joinPoint d.negative [] hint (places_ne_nil hne _) hfrac rfl
    fun c hc => absurd hc (Option.not_mem_none c)
  rw [List.append_nil] at hread
  rw [hread]
  by_cases he : d.exponent ≤ 0
  · obtain ⟨hvalue, hlength⟩ := places_le (Nat.toDigits 10 d.coefficient)
      (d.exponent + ((Nat.toDigits 10 d.coefficient).length : ℤ)) (by omega)
    have hpow : d.exponent.toNat = 0 := Int.toNat_of_nonpos he
    have hexponent : 0 - (((Nat.toDigits 10 d.coefficient).length : ℤ) -
        (d.exponent + ((Nat.toDigits 10 d.coefficient).length : ℤ))) = d.exponent := by omega
    rw [hvalue, hlength, Nat.ofDigitChars_ten_toDigits, hexponent, hpow, Nat.pow_zero, Nat.mul_one,
      min_eq_left he]
  · obtain ⟨hvalue, hempty⟩ := places_ge (Nat.toDigits 10 d.coefficient)
      (d.exponent + ((Nat.toDigits 10 d.coefficient).length : ℤ)) (by omega) hne
    have hgap : d.exponent + ((Nat.toDigits 10 d.coefficient).length : ℤ) -
        ((Nat.toDigits 10 d.coefficient).length : ℤ) = d.exponent := by omega
    rw [hvalue, hempty, Nat.ofDigitChars_ten_toDigits, hgap, min_eq_right (by omega)]
    rfl

/-! ## Plain text -/

/-- Digits with at most one point; after a point there are digits, and the last one is not zero. -/
def Plain (text : List Char) : Prop :=
  ∃ intpart fracpart, text = joinPoint (intpart, fracpart) ∧ intpart ≠ [] ∧ Digits intpart ∧
    Digits fracpart ∧ fracpart.getLast? ≠ some '0'

/-- The last digit of the fraction is the last digit. -/
theorem getLast?_places (hne : ds ≠ []) (dot : ℤ) :
    (places ds dot).2 = [] ∨ (places ds dot).2.getLast? = ds.getLast? := by
  rw [places]
  by_cases hdot : dot ≤ 0
  · rw [if_pos hdot]
    refine .inr ?_
    rw [List.getLast?_append, List.getLast?_eq_some_getLast hne]
    rfl
  · rw [if_neg hdot]
    by_cases hle : ds.length ≤ dot
    · rw [if_pos hle]
      exact .inl rfl
    · rw [if_neg hle]
      refine .inr ?_
      rw [List.getLast?_drop, if_neg (by omega)]

theorem getLast?_toDigits {n : ℕ} (h : n % 10 ≠ 0) : (Nat.toDigits 10 n).getLast? ≠ some '0' := by
  by_cases hn : n < 10
  · rw [Nat.toDigits_of_lt_base hn]
    show some (Nat.digitChar n) ≠ some '0'
    rw [Ne, Option.some_inj, Nat.digitChar_eq_zero]
    omega
  · rw [Nat.toDigits_of_base_le (by decide) (not_lt.mp hn), List.getLast?_concat, Ne,
      Option.some_inj, Nat.digitChar_eq_zero]
    exact h

/-- A positive number without zeros to strip has a plain format. -/
theorem plain_fixedPoint {d : Decimal} (hpos : d.negative = false) (hd : d.coefficient % 10 ≠ 0) :
    Plain d.fixedPoint := by
  have hne : Nat.toDigits 10 d.coefficient ≠ [] := Nat.toDigits_ne_nil
  have hzero : ¬ (d.coefficient = 0 ∧ 0 < d.exponent) := by omega
  rw [fixedPoint, if_neg hzero, hpos]
  obtain ⟨hint, hfrac⟩ := digits_places (Digits.toDigits d.coefficient)
    (d.exponent + ((Nat.toDigits 10 d.coefficient).length : ℤ))
  refine ⟨(places _ _).1, (places _ _).2, rfl, places_ne_nil hne _, hint, hfrac, ?_⟩
  cases getLast?_places hne (d.exponent + ((Nat.toDigits 10 d.coefficient).length : ℤ)) with
  | inl hempty =>
    rw [hempty]
    exact Option.some_ne_none '0' ∘ Eq.symm
  | inr hlast =>
    rw [hlast]
    exact getLast?_toDigits hd

end Decimal
