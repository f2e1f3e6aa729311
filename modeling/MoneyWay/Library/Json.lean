import Mathlib.Algebra.Group.Nat.Defs
import Mathlib.Data.List.DropRight
import Mathlib.Data.List.Infix

/-!
# JSON values and text as Python has them

What `json.loads` returns, with the truth value, the equality with zero and the
`str` of a value, and the tests on text that programs make on messages. What the
interpreter's Unicode database says beyond ASCII is a parameter.
-/

set_option autoImplicit false

namespace Python

/-- The Unicode database: which characters `repr` leaves alone, which are white space, and
`text.lower()`, which depends on the context of a letter. -/
structure Unicode where
  printable : Char → Bool
  space : Char → Bool
  lower : String → String
  lower_ascii : ∀ s : String, (∀ c ∈ s.toList, c.toNat < 128) →
    lower s = String.ofList (s.toList.map Char.toLower)
  lower_lower : ∀ s : String, lower (lower s) = lower s

theorem toLower_eq_self {c : Char} (h : c.isUpper = false) : c.toLower = c :=
  dif_neg (of_decide_eq_false h)

theorem toLower_toLower (c : Char) : c.toLower.toLower = c.toLower := by
  cases h : c.isUpper with
  | false => rw [toLower_eq_self h, toLower_eq_self h]
  | true =>
    -- the lower case letters come after all the upper case ones
    obtain ⟨hA, hZ⟩ : 'A'.val ≤ c.val ∧ c.val ≤ 'Z'.val := of_decide_eq_true h
    rw [UInt32.le_iff_toNat_le] at hA hZ
    have hA' : 'A'.val.toNat = 65 := rfl
    have hZ' : 'Z'.val.toNat = 90 := rfl
    have h32 : (32 : UInt32).toNat = 32 := rfl
    have hval : c.toLower.val = c.val + 32 := congrArg Char.val (dif_pos (of_decide_eq_true h))
    have hnat : c.toLower.val.toNat = c.val.toNat + 32 := by
      rw [hval, UInt32.toNat_add, h32]
      exact Nat.mod_eq_of_lt (by omega)
    apply toLower_eq_self
    apply decide_eq_false
    rintro ⟨-, hle⟩
    rw [UInt32.le_iff_toNat_le] at hle
    omega

/-- A database that knows ASCII only. -/
def Unicode.ascii : Unicode where
  printable := fun _ => false
  space := fun c => c.isWhitespace
  lower := fun s => String.ofList (s.toList.map Char.toLower)
  lower_ascii := fun _ _ => rfl
  lower_lower := fun s => by
    have hchars : Char.toLower ∘ Char.toLower = Char.toLower := funext toLower_toLower
    rw [String.toList_ofList, List.map_map, hchars]

/-- A floating-point number as far as `str`, `==` with zero and storing it go. -/
structure Float64 where
  repr : String
  isZero : Bool
  isFinite : Bool
  deriving DecidableEq, Repr

/-- A decoded JSON document; an object has its keys in the order of insertion. -/
inductive Json where
  | null
  | bool (b : Bool)
  | int (n : ℤ)
  | float (x : Float64)
  | str (s : String)
  | arr (items : List Json)
  | obj (fields : List (String × Json))

/-- `dict.get`. -/
def dictGet (fields : List (String × Json)) (key : String) : Option Json :=
  (fields.find? fun f => f.1 = key).map Prod.snd

namespace Json

/-- `isinstance(value, dict)`, with the fields. -/
def dict? : Json → Option (List (String × Json))
  | .obj fields => some fields
  | _ => none

/-- `bool(value)`. -/
def truthy : Json → Bool
  | .null => false
  | .bool b => b
  | .int n => n ≠ 0
  | .float x => !x.isZero
  | .str s => s ≠ ""
  | .arr items => !items.isEmpty
  | .obj fields => !fields.isEmpty

/-- `value == 0`: `False` and `0.0` are equal to zero too. -/
def eqZero : Json → Bool
  | .bool b => !b
  | .int n => n = 0
  | .float x => x.isZero
  | _ => false

end Json

section Text

/-- The hexadecimal digits of `n`, `width` of them. -/
def hex (width n : ℕ) : List Char :=
  (List.range width).reverse.map fun i => Nat.digitChar (n / 16 ^ i % 16)

variable (unicode : Unicode)

/-- One character inside a quoted `repr`. -/
def reprChar (quote c : Char) : List Char :=
  if c = quote ∨ c = '\\' then ['\\', c]
  else if c = '\t' then ['\\', 't']
  else if c = '\n' then ['\\', 'n']
  else if c = '\r' then ['\\', 'r']
  else if c.toNat < 32 ∨ c.toNat = 127 then '\\' :: 'x' :: hex 2 c.toNat
  else if c.toNat < 127 ∨ unicode.printable c then [c]
  else if c.toNat ≤ 255 then '\\' :: 'x' :: hex 2 c.toNat
  else if c.toNat ≤ 65535 then '\\' :: 'u' :: hex 4 c.toNat
  else '\\' :: 'U' :: hex 8 c.toNat

def reprText (s : String) : String :=
  let quote := if '\'' ∈ s.toList ∧ '"' ∉ s.toList then '"' else '\''
  String.ofList (quote :: s.toList.flatMap (reprChar unicode quote) ++ [quote])

mutual

/-- `repr(value)`. -/
def Json.repr : Json → String
  | .null => "None"
  | .bool b => if b then "True" else "False"
  | .int n => toString n
  | .float x => x.repr
  | .str s => reprText unicode s
  | .arr items => "[" ++ ", ".intercalate (reprItems items) ++ "]"
  | .obj fields => "\x7b" ++ ", ".intercalate (reprFields fields) ++ "\x7d"

def reprItems : List Json → List String
  | [] => []
  | v :: vs => v.repr :: reprItems vs

def reprFields : List (String × Json) → List String
  | [] => []
  | (k, v) :: fs => (reprText unicode k ++ ": " ++ v.repr) :: reprFields fs

end

/-- `str(value)`. -/
def Json.toStr : Json → String
  | .str s => s
  | v => v.repr unicode

/-- `text.strip()`. -/
def strip (s : String) : String :=
  String.ofList ((s.toList.dropWhile unicode.space).reverse.dropWhile unicode.space).reverse

theorem toList_strip (s : String) : (strip unicode s).toList =
    (s.toList.dropWhile unicode.space).rdropWhile unicode.space := String.toList_ofList

end Text

/-- What is trimmed at both ends begins with no such character. -/
theorem dropWhile_trimmed {α : Type} (p : α → Bool) (l : List α) :
    ((l.dropWhile p).rdropWhile p).dropWhile p = (l.dropWhile p).rdropWhile p := by
  rw [List.dropWhile_eq_self_iff]
  intro hl
  have hpre := List.rdropWhile_prefix p (l.dropWhile p)
  have hlong : 0 < (l.dropWhile p).length := hl.trans_le hpre.length_le
  rw [hpre.getElem hl]
  exact List.dropWhile_eq_self_iff.mp (List.dropWhile_idempotent p l) hlong

/-- A letter is no white space in either case. -/
theorem isWhitespace_toLower (c : Char) : c.toLower.isWhitespace = c.isWhitespace := by
  cases h : c.isUpper with
  | false => rw [toLower_eq_self h]
  | true =>
    obtain ⟨hA, hZ⟩ : 'A'.val ≤ c.val ∧ c.val ≤ 'Z'.val := of_decide_eq_true h
    have hval : c.toLower.val = c.val + 32 := congrArg Char.val (dif_pos (of_decide_eq_true h))
    have hspaces (d : Char) (hd : 65 ≤ d.val.toNat) : d.isWhitespace = false := by
      have hne (e : Char) (he : e.val.toNat < 65) : d ≠ e := by
        rintro rfl
        omega
      simp [Char.isWhitespace, hne ' ' (by decide), hne '\t' (by decide), hne '\r' (by decide),
        hne '\n' (by decide)]
    have hc : 65 ≤ c.val.toNat := UInt32.le_iff_toNat_le.mp hA
    have hc' : c.val.toNat ≤ 90 := UInt32.le_iff_toNat_le.mp hZ
    have h32 : (32 : UInt32).toNat = 32 := rfl
    have hlower : 65 ≤ c.toLower.val.toNat := by
      rw [hval, UInt32.toNat_add, h32]
      omega
    rw [hspaces c hc, hspaces _ hlower]

/-- In ASCII, lower case leaves the ends of a stripped text. -/
theorem strip_lower_ascii (s : String) : strip .ascii (Unicode.ascii.lower (strip .ascii s)) =
    Unicode.ascii.lower (strip .ascii s) := by
  have hspace : Unicode.ascii.space ∘ Char.toLower = Unicode.ascii.space :=
    funext isWhitespace_toLower
  apply String.toList_inj.mp
  rw [toList_strip]
  have hlower (t : String) : (Unicode.ascii.lower t).toList = t.toList.map Char.toLower :=
    String.toList_ofList
  rw [hlower, toList_strip, List.dropWhile_map, hspace, dropWhile_trimmed, List.rdropWhile,
    ← List.map_reverse, List.dropWhile_map, hspace, ← List.map_reverse]
  exact congrArg _ (List.rdropWhile_idempotent ..)

/-- `text[:n]`. -/
def slice (n : ℕ) (s : String) : String := String.ofList (s.toList.take n)

/-- `needle in text`. -/
def contains (text needle : String) : Bool := decide (needle.toList <:+: text.toList)

section Stored

/-- PostgreSQL has no NUL character in a text value. -/
def storableText (s : String) : Bool := s.toList.all fun c => c.toNat ≠ 0

theorem storableText_of_digits {s : String}
    (h : (s.toList.all fun c => '0'.toNat ≤ c.toNat) = true) : storableText s = true := by
  rw [storableText, List.all_eq_true]
  intro c hc
  have hle : '0'.toNat ≤ c.toNat := of_decide_eq_true (List.all_eq_true.mp h c hc)
  simp only [decide_eq_true_eq]
  intro h0
  rw [h0] at hle
  exact absurd hle (by decide)

mutual

/-- The value can be stored as `jsonb`. -/
def Json.storable : Json → Bool
  | .float x => x.isFinite
  | .str s => storableText s
  | .arr items => storableItems items
  | .obj fields => storableFields fields
  | _ => true

def storableItems : List Json → Bool
  | [] => true
  | v :: vs => v.storable && storableItems vs

def storableFields : List (String × Json) → Bool
  | [] => true
  | (k, v) :: fs => storableText k && v.storable && storableFields fs

end

end Stored

end Python
