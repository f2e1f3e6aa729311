import Mathlib.Data.List.Basic
import Mathlib.Logic.Function.Basic

/-!
# Form encoding

`application/x-www-form-urlencoded` as `urlencode` writes it: the UTF-8 bytes of a text are
escaped, a space becomes a plus sign, and the pairs are joined with `=` and `&`.

## Main definitions

- `quotePlus`, `encode` — a text and a list of pairs as a form
- `text?`, `decode` — reading them back

## Main results

- `decode_append` — what follows an `&` is read on its own
- `decode_encode` — the pairs come back as they were
- `append_field_inj` — where the last field of a form begins
-/

set_option autoImplicit false

namespace FormEncoding

/-! ## Texts -/

def hexDigit (n : Nat) : Char := (Nat.digitChar n).toUpper

/-- The value of a hexadecimal digit of either case. -/
def hexValue (c : Char) : Option Nat :=
  if '0' ≤ c ∧ c ≤ '9' then some (c.toNat - '0'.toNat)
  else if 'A' ≤ c ∧ c ≤ 'F' then some (c.toNat - 'A'.toNat + 10)
  else if 'a' ≤ c ∧ c ≤ 'f' then some (c.toNat - 'a'.toNat + 10)
  else none

/-- The characters that stand for themselves. -/
def unreserved (c : Char) : Bool := c.isAlphanum || c == '_' || c == '.' || c == '-' || c == '~'

def quoteByte (b : UInt8) : List Char :=
  let c := Char.ofNat b.toNat
  if c = ' ' then ['+']
  else if unreserved c then [c]
  else ['%', hexDigit (b.toNat / 16), hexDigit (b.toNat % 16)]

/-- `urllib.parse.quote_plus` -/
def quotePlus (text : String) : List Char := text.toByteArray.data.toList.flatMap quoteByte

/-- The bytes of an escaped text. A percent sign without two digits stands for itself. -/
def unquotePlus : List Char → List UInt8
  | [] => []
  | '+' :: cs => 0x20 :: unquotePlus cs
  | '%' :: a :: b :: cs =>
    match hexValue a, hexValue b with
    | some high, some low => UInt8.ofNat (16 * high + low) :: unquotePlus cs
    | _, _ => 0x25 :: unquotePlus (a :: b :: cs)
  | c :: cs => String.utf8EncodeChar c ++ unquotePlus cs

/-- An escaped text read back, when its bytes are UTF-8. -/
def text? (cs : List Char) : Option String := String.fromUTF8? (unquotePlus cs).toByteArray

/-! ## Pairs -/

def encodePair (p : String × String) : List Char := quotePlus p.1 ++ '=' :: quotePlus p.2

/-- `urllib.parse.urlencode` -/
def encode (pairs : List (String × String)) : List Char :=
  ['&'].intercalate (pairs.map encodePair)

/-- A piece of a form: the name ends at the first `=`. -/
def decodePair (piece : List Char) : Option (String × String) := do
  let name ← text? (piece.takeWhile (· ≠ '='))
  let value ← text? ((piece.dropWhile (· ≠ '=')).drop 1)
  return (name, value)

/-- The pairs of a form. Empty pieces are no pairs. -/
def decode (body : List Char) : Option (List (String × String)) :=
  ((body.splitOn '&').filter (· ≠ [])).mapM decodePair

/-! ## Reading a text back -/

theorem unquotePlus_cons {c : Char} (hplus : c ≠ '+') (hpercent : c ≠ '%') (cs : List Char) :
    unquotePlus (c :: cs) = String.utf8EncodeChar c ++ unquotePlus cs := by
  rw [unquotePlus]
  · exact hplus
  · intro a b cs' hc
    exact absurd hc hpercent

theorem unquotePlus_escape {a b : Char} {high low : Nat} (ha : hexValue a = some high)
    (hb : hexValue b = some low) (cs : List Char) :
    unquotePlus ('%' :: a :: b :: cs) = UInt8.ofNat (16 * high + low) :: unquotePlus cs := by
  rw [unquotePlus, ha, hb]

/-- The two digits of a byte give it back. -/
theorem hexValue_hexDigit : ∀ n < 16, hexValue (hexDigit n) = some n := by decide

/-- A character that stands for itself is an ASCII character and no sign of the encoding. -/
theorem of_unreserved : ∀ n < 256, unreserved (Char.ofNat n) = true →
    Char.ofNat n ≠ '+' ∧ Char.ofNat n ≠ '%' ∧ Char.ofNat n ≠ '&' ∧ Char.ofNat n ≠ '=' ∧
      String.utf8EncodeChar (Char.ofNat n) = [UInt8.ofNat n] := by
  decide +kernel

theorem unquotePlus_quoteByte (b : UInt8) (cs : List Char) :
    unquotePlus (quoteByte b ++ cs) = b :: unquotePlus cs := by
  have hb : b.toNat < 256 := b.toNat_lt
  rw [quoteByte]
  by_cases hspace : Char.ofNat b.toNat = ' '
  · have hbyte : b = 0x20 := by
      apply UInt8.toNat_inj.mp
      have hall : ∀ n < 256, Char.ofNat n = ' ' → n = 32 := by decide +kernel
      exact hall b.toNat hb hspace
    rw [if_pos hspace, hbyte]
    rfl
  · rw [if_neg hspace]
    by_cases hplain : unreserved (Char.ofNat b.toNat) = true
    · obtain ⟨hplus, hpercent, -, -, hutf8⟩ := of_unreserved b.toNat hb hplain
      rw [if_pos hplain]
      show unquotePlus (Char.ofNat b.toNat :: cs) = _
      rw [unquotePlus_cons hplus hpercent, hutf8, UInt8.ofNat_toNat]
      rfl
    · have hhigh : b.toNat / 16 < 16 := by omega
      have hlow : b.toNat % 16 < 16 := by omega
      rw [if_neg hplain]
      show unquotePlus ('%' :: hexDigit (b.toNat / 16) :: hexDigit (b.toNat % 16) :: cs) = _
      rw [unquotePlus_escape (hexValue_hexDigit _ hhigh) (hexValue_hexDigit _ hlow),
        Nat.div_add_mod, UInt8.ofNat_toNat]

theorem unquotePlus_quoteBytes (bs : List UInt8) : unquotePlus (bs.flatMap quoteByte) = bs := by
  induction bs with
  | nil => rfl
  | cons b bs ih => rw [List.flatMap_cons, unquotePlus_quoteByte, ih]

theorem fromUTF8?_toByteArray (text : String) : String.fromUTF8? text.toByteArray = some text :=
  dif_pos text.isValidUTF8

/-- An escaped text is read back as it was. -/
theorem text?_quotePlus (text : String) : text? (quotePlus text) = some text := by
  have hbytes : text.toByteArray.data.toList.toByteArray = text.toByteArray := by
    apply ByteArray.ext
    rw [List.data_toByteArray, Array.toArray_toList]
  rw [text?, quotePlus, unquotePlus_quoteBytes, hbytes]
  exact fromUTF8?_toByteArray text

/-- Text without the signs of the encoding is read as it stands. -/
theorem text?_plain {cs : List Char} (h : ∀ c ∈ cs, c ≠ '+' ∧ c ≠ '%') :
    text? cs = some (String.ofList cs) := by
  have hbytes : unquotePlus cs = cs.flatMap String.utf8EncodeChar := by
    induction cs with
    | nil => rfl
    | cons c cs ih =>
      obtain ⟨hplus, hpercent⟩ := h c List.mem_cons_self
      rw [unquotePlus_cons hplus hpercent, ih fun d hd => h d (List.mem_cons_of_mem c hd),
        List.flatMap_cons]
  have hencode : (cs.flatMap String.utf8EncodeChar).toByteArray =
      (String.ofList cs).toByteArray := String.toByteArray_ofList.symm
  rw [text?, hbytes, hencode]
  exact fromUTF8?_toByteArray (String.ofList cs)

/-! ## Separators -/

/-- No separator is left in an escaped text. -/
theorem quoteByte_ne {b : UInt8} {c : Char} (hc : c ∈ quoteByte b) : c ≠ '&' ∧ c ≠ '=' := by
  have hb : b.toNat < 256 := b.toNat_lt
  have hdigit : ∀ n < 16, hexDigit n ≠ '&' ∧ hexDigit n ≠ '=' := by decide
  rw [quoteByte] at hc
  by_cases hspace : Char.ofNat b.toNat = ' '
  · rw [if_pos hspace, List.mem_singleton] at hc
    rw [hc]
    decide
  · rw [if_neg hspace] at hc
    by_cases hplain : unreserved (Char.ofNat b.toNat) = true
    · obtain ⟨-, -, hand, heq, -⟩ := of_unreserved b.toNat hb hplain
      rw [if_pos hplain, List.mem_singleton] at hc
      rw [hc]
      exact ⟨hand, heq⟩
    · rw [if_neg hplain] at hc
      simp only [List.mem_cons, List.not_mem_nil, or_false] at hc
      rcases hc with hc | hc | hc
      · rw [hc]
        decide
      · rw [hc]
        exact hdigit _ (by omega)
      · rw [hc]
        exact hdigit _ (by omega)

theorem and_not_mem_quotePlus (text : String) : '&' ∉ quotePlus text := by
  intro hmem
  obtain ⟨b, -, hc⟩ := List.mem_flatMap.mp hmem
  exact (quoteByte_ne hc).1 rfl

theorem eq_not_mem_quotePlus (text : String) : '=' ∉ quotePlus text := by
  intro hmem
  obtain ⟨b, -, hc⟩ := List.mem_flatMap.mp hmem
  exact (quoteByte_ne hc).2 rfl

theorem and_not_mem_encodePair (p : String × String) : '&' ∉ encodePair p := by
  rw [encodePair, List.mem_append, List.mem_cons]
  rintro (hmem | heq | hmem)
  · exact and_not_mem_quotePlus _ hmem
  · exact absurd heq (by decide)
  · exact and_not_mem_quotePlus _ hmem

theorem encodePair_ne_nil (p : String × String) : encodePair p ≠ [] := by
  rw [encodePair]
  exact List.append_ne_nil_of_right_ne_nil _ (List.cons_ne_nil _ _)

/-! ## Reading pairs back -/

/-- The name of a piece is what stands before its first `=`. -/
theorem decodePair_append {name value : List Char} (h : '=' ∉ name) :
    decodePair (name ++ '=' :: value) =
      (text? name).bind fun n => (text? value).map fun v => (n, v) := by
  have hname : ∀ c ∈ name, decide (c ≠ '=') = true := by
    intro c hc
    apply decide_eq_true
    rintro rfl
    exact h hc
  have htake : (name ++ '=' :: value).takeWhile (· ≠ '=') = name := by
    rw [List.takeWhile_append_of_pos hname]
    exact List.append_nil name
  have hdrop : (name ++ '=' :: value).dropWhile (· ≠ '=') = '=' :: value := by
    rw [List.dropWhile_append_of_pos hname]
    rfl
  rw [decodePair, htake, hdrop]
  show (text? name >>= fun n => text? value >>= fun v => pure (n, v)) = _
  cases text? name with
  | none => rfl
  | some n =>
    cases text? value with
    | none => rfl
    | some v => rfl

theorem decodePair_encodePair (p : String × String) : decodePair (encodePair p) = some p := by
  rw [encodePair, decodePair_append (eq_not_mem_quotePlus p.1), text?_quotePlus, text?_quotePlus]
  rfl

/-- Forms joined with an `&` are read one after the other. -/
theorem decode_append (body rest : List Char) : decode (body ++ '&' :: rest) =
    (decode body).bind fun ps => (decode rest).map fun qs => ps ++ qs := by
  rw [decode, List.splitOn_append_cons_self, List.filter_append, List.mapM_append]
  show (decode body >>= fun ps => decode rest >>= fun qs => pure (ps ++ qs)) = _
  cases decode body with
  | none => rfl
  | some ps =>
    cases decode rest with
    | none => rfl
    | some qs => rfl

/-- A piece is read as a pair. -/
theorem decode_piece {piece : List Char} (hand : '&' ∉ piece) (hne : piece ≠ []) :
    decode piece = (decodePair piece).map fun p => [p] := by
  have hfilter : [piece].filter (· ≠ []) = [piece] :=
    List.filter_cons_of_pos (decide_eq_true hne)
  rw [decode, List.splitOn_eq_singleton hand, hfilter]
  cases hp : decodePair piece with
  | none => simp [hp]
  | some p => simp [hp]

/-- A form is read back as the pairs it was made of. -/
theorem decode_encode (pairs : List (String × String)) : decode (encode pairs) = some pairs := by
  cases pairs with
  | nil => rfl
  | cons p ps =>
    induction ps generalizing p with
    | nil =>
      show decode (encodePair p ++ []) = _
      rw [List.append_nil, decode_piece (and_not_mem_encodePair p) (encodePair_ne_nil p),
        decodePair_encodePair]
      rfl
    | cons q ps ih =>
      show decode (encodePair p ++ '&' :: encode (q :: ps)) = _
      rw [decode_append, ih q, decode_piece (and_not_mem_encodePair p) (encodePair_ne_nil p),
        decodePair_encodePair]
      rfl

/-! ## The last field -/

/-- The pieces of a form are its pairs. -/
theorem mem_splitOn_encode {pairs : List (String × String)} {piece : List Char}
    (h : piece ∈ (encode pairs).splitOn '&') (hne : piece ≠ []) :
    ∃ p ∈ pairs, piece = encodePair p := by
  cases pairs with
  | nil => exact absurd (List.mem_singleton.mp h) hne
  | cons p ps =>
    have hand : ∀ q ∈ (p :: ps).map encodePair, '&' ∉ q := by
      intro q hq
      obtain ⟨p', -, rfl⟩ := List.mem_map.mp hq
      exact and_not_mem_encodePair p'
    rw [encode, List.splitOn_intercalate '&' hand (List.cons_ne_nil _ _)] at h
    obtain ⟨p', hp', rfl⟩ := List.mem_map.mp h
    exact ⟨p', hp', rfl⟩

/-- A form determines what stands before its last field, and where no pair has the name of the
last field, no other place of the form looks like it. -/
theorem append_field_inj {pairs : List (String × String)} {name : String}
    {value pre post : List Char} (hvalue : '&' ∉ value)
    (h : encode pairs ++ '&' :: (quotePlus name ++ '=' :: value) =
      pre ++ '&' :: (quotePlus name ++ '=' :: post))
    (hname : name ∉ pairs.map Prod.fst ∨ '&' ∉ post) : pre = encode pairs ∧ post = value := by
  have hfield {rest : List Char} (hrest : '&' ∉ rest) : '&' ∉ quotePlus name ++ '=' :: rest := by
    rw [List.mem_append, List.mem_cons]
    rintro (hmem | heq | hmem)
    · exact and_not_mem_quotePlus name hmem
    · exact absurd heq (by decide)
    · exact hrest hmem
  have hsplit := congrArg (List.splitOn '&') h
  rw [List.splitOn_append_cons_self, List.splitOn_append_cons_self,
    List.splitOn_eq_singleton (hfield hvalue)] at hsplit
  by_cases hpost : '&' ∈ post
  · exfalso
    have hfresh : name ∉ pairs.map Prod.fst := hname.resolve_right fun hno => hno hpost
    obtain ⟨first, rest, hparts, hfirst⟩ := List.eq_append_cons_of_mem hpost
    have hpieces : (quotePlus name ++ '=' :: post).splitOn '&' =
        (quotePlus name ++ '=' :: first) :: rest.splitOn '&' := by
      rw [hparts, ← List.cons_append, ← List.append_assoc,
        List.splitOn_append_cons_self_of_not_mem (hfield hfirst)]
    -- more pieces follow, so this one is not the last
    obtain ⟨init, last, hlast⟩ :=
      (List.eq_nil_or_concat _).resolve_left (List.splitOn_ne_nil '&' rest)
    rw [hpieces, hlast, List.concat_eq_append, ← List.cons_append, ← List.append_assoc] at hsplit
    have hbefore := (List.append_inj' hsplit rfl).1
    have hmem : quotePlus name ++ '=' :: first ∈ (encode pairs).splitOn '&' := by
      rw [hbefore]
      exact List.mem_append_right _ List.mem_cons_self
    obtain ⟨p, hp, hpiece⟩ := mem_splitOn_encode hmem
      (List.append_ne_nil_of_right_ne_nil _ (List.cons_ne_nil _ _))
    have hdecode := decodePair_encodePair p
    rw [← hpiece, decodePair_append (eq_not_mem_quotePlus name), text?_quotePlus] at hdecode
    obtain ⟨v, -, hv⟩ := Option.map_eq_some_iff.mp hdecode
    exact hfresh (List.mem_map.mpr ⟨p, hp, congrArg Prod.fst hv.symm⟩)
  · rw [List.splitOn_eq_singleton (hfield hpost)] at hsplit
    obtain ⟨hpre, hlast⟩ := List.append_inj' hsplit rfl
    have hvalues := List.append_cancel_left (List.singleton_inj.mp hlast)
    refine ⟨?_, (List.cons_inj_right '=').mp hvalues.symm⟩
    calc pre = ['&'].intercalate (pre.splitOn '&') := (List.intercalate_splitOn '&').symm
      _ = ['&'].intercalate ((encode pairs).splitOn '&') := by rw [hpre]
      _ = encode pairs := List.intercalate_splitOn '&'

end FormEncoding
