import Mathlib.Data.List.Nodup
import Mathlib.Data.List.Sort
import MoneyWay.Library.FormEncoding
import MoneyWay.Library.Sha256

/-!
# The signed query

The parameters of a request in the order of their names, as a form, and the signature over that
form as its last field.

## Main results

- `signedQuery_perm` — the order in which the parameters were set does not matter
- `decode_signedQuery` — what the receiver of the form reads
- `signed_query_unambiguous` — the form is the parameters and the signature, and nothing else
-/

set_option autoImplicit false

namespace MoneyWay

open FormEncoding

/-- A dictionary of parameters, in the order in which they were set. -/
structure Params (α : Type) where
  items : List (String × α)
  keys_nodup : (items.map Prod.fst).Nodup

section

variable {α : Type} (str : α → String)

def printed (items : List (String × α)) : List (String × String) :=
  items.map fun p => (p.1, str p.2)

/-- No two keys of a dictionary are equal, so the values are not compared. -/
def KeyLE (p q : String × α) : Prop := p.1 ≤ q.1

instance : DecidableRel (KeyLE (α := α)) := fun p q => String.decLE p.1 q.1

instance : Std.Total (KeyLE (α := α)) := ⟨fun p q => String.le_total p.1 q.1⟩

instance : IsTrans (String × α) KeyLE := ⟨fun _ _ _ hpq hqr => String.le_trans hpq hqr⟩

/-- `sorted(params.items())` -/
def Params.sortedItems (params : Params α) : List (String × α) := params.items.insertionSort KeyLE

def signatureOf (secretKey query : String) : String :=
  String.ofList (Sha256.hexdigest (Sha256.hmac secretKey.toByteArray.data.toList
    query.toByteArray.data.toList))

/-- The form that is signed. -/
def query (params : Params α) : String := String.ofList (encode (printed str params.sortedItems))

def signedQuery (secretKey : String) (params : Params α) : String :=
  query str params ++ "&signature=" ++ signatureOf secretKey (query str params)

/-! ## The order of the parameters -/

variable {str} {secretKey : String} {params params' : Params α}

theorem Params.perm_sortedItems (params : Params α) : params.sortedItems.Perm params.items :=
  List.perm_insertionSort _ _

theorem Params.pairwise_sortedItems (params : Params α) : params.sortedItems.Pairwise KeyLE :=
  List.pairwise_insertionSort _ _

theorem Params.eq_of_key (params : Params α) {p q : String × α} (hp : p ∈ params.items)
    (hq : q ∈ params.items) (h : p.1 = q.1) : p = q :=
  List.inj_on_of_nodup_map params.keys_nodup hp hq h

theorem sortedItems_perm (h : params'.items.Perm params.items) :
    params'.sortedItems = params.sortedItems := by
  refine List.Perm.eq_of_pairwise ?_ params'.pairwise_sortedItems params.pairwise_sortedItems
    ((params'.perm_sortedItems.trans h).trans params.perm_sortedItems.symm)
  intro p q hp hq hpq hqp
  have hkey : p.1 = q.1 := String.le_antisymm hpq hqp
  exact params.eq_of_key (h.subset (params'.perm_sortedItems.subset hp))
    (params.perm_sortedItems.subset hq) hkey

theorem signedQuery_perm (h : params'.items.Perm params.items) :
    signedQuery str secretKey params' = signedQuery str secretKey params := by
  rw [signedQuery, signedQuery, query, query, sortedItems_perm h]

/-! ## Reading it -/

theorem and_not_mem_signatureOf (secretKey query : String) :
    '&' ∉ (signatureOf secretKey query).toList := by
  intro hmem
  rw [signatureOf, String.toList_ofList] at hmem
  exact absurd (Sha256.mem_hexdigest hmem) (by decide)

theorem text?_signatureOf (secretKey query : String) :
    text? (signatureOf secretKey query).toList = some (signatureOf secretKey query) := by
  rw [signatureOf, String.toList_ofList]
  refine text?_plain fun c hc => ?_
  have hall : "0123456789abcdef".toList.all (fun c => c ≠ '+' ∧ c ≠ '%') = true := by decide
  exact of_decide_eq_true (List.all_eq_true.mp hall c (Sha256.mem_hexdigest hc))

theorem quotePlus_signature : quotePlus "signature" = "signature".toList := by decide +kernel

theorem toList_signedQuery : (signedQuery str secretKey params).toList =
    encode (printed str params.sortedItems) ++
      '&' :: (quotePlus "signature" ++
        '=' :: (signatureOf secretKey (query str params)).toList) := by
  rw [quotePlus_signature, signedQuery, String.toList_append, String.toList_append, query,
    String.toList_ofList, List.append_assoc]
  rfl

theorem decode_signedQuery : decode (signedQuery str secretKey params).toList =
    some (printed str params.sortedItems ++
      [("signature", signatureOf secretKey (query str params))]) := by
  have hand : '&' ∉
      quotePlus "signature" ++ '=' :: (signatureOf secretKey (query str params)).toList := by
    rw [List.mem_append, List.mem_cons]
    rintro (hmem | heq | hmem)
    · exact and_not_mem_quotePlus _ hmem
    · exact absurd heq (by decide)
    · exact and_not_mem_signatureOf _ _ hmem
  rw [toList_signedQuery, decode_append, decode_encode,
    decode_piece hand (List.append_ne_nil_of_right_ne_nil _ (List.cons_ne_nil _ _)),
    decodePair_append (eq_not_mem_quotePlus _), text?_quotePlus, text?_signatureOf]
  rfl

theorem printed_perm {items items' : List (String × α)} (h : items'.Perm items) :
    (printed str items').Perm (printed str items) := h.map _

/-- A signed query determines its parameters, as they are printed. -/
theorem printed_of_signedQuery {secretKey' : String}
    (h : signedQuery str secretKey' params' = signedQuery str secretKey params) :
    (printed str params'.items).Perm (printed str params.items) := by
  have hdecode : decode (signedQuery str secretKey' params').toList =
      decode (signedQuery str secretKey params).toList := by rw [h]
  rw [decode_signedQuery, decode_signedQuery] at hdecode
  have hsorted := congrArg List.dropLast (Option.some.inj hdecode)
  rw [List.dropLast_concat, List.dropLast_concat] at hsorted
  have hprinted : (printed str params'.items).Perm (printed str params.sortedItems) := by
    rw [← hsorted]
    exact printed_perm params'.perm_sortedItems.symm
  exact hprinted.trans (printed_perm params.perm_sortedItems)

theorem printed_keys (items : List (String × α)) :
    (printed str items).map Prod.fst = items.map Prod.fst := List.map_map

/-- The order in which parameters are set does not matter. A signed query is read as the
parameters and the signature; the signature is over exactly what stands before it, and the
parameters are determined by it. -/
theorem signed_query_unambiguous (str : α → String) (secretKey : String) (params : Params α) :
    (∀ params' : Params α, params'.items.Perm params.items →
      signedQuery str secretKey params' = signedQuery str secretKey params) ∧
    (∃ body pairs, pairs.Perm (printed str params.items) ∧
      signedQuery str secretKey params = body ++ "&signature=" ++ signatureOf secretKey body ∧
      (∀ before after, signedQuery str secretKey params = before ++ "&signature=" ++ after →
        "signature" ∉ params.items.map Prod.fst ∨ '&' ∉ after.toList →
        before = body ∧ after = signatureOf secretKey body) ∧
      decode (signedQuery str secretKey params).toList =
        some (pairs ++ [("signature", signatureOf secretKey body)])) ∧
    ∀ (secretKey' : String) (params' : Params α),
      signedQuery str secretKey' params' = signedQuery str secretKey params →
      (printed str params'.items).Perm (printed str params.items) := by
  refine ⟨fun params' h => signedQuery_perm h, ?_, fun secretKey' params' => printed_of_signedQuery⟩
  refine ⟨query str params, printed str params.sortedItems, printed_perm params.perm_sortedItems,
    rfl, ?_, decode_signedQuery⟩
  intro before after h hname
  have hchars : encode (printed str params.sortedItems) ++
      '&' :: (quotePlus "signature" ++ '=' :: (signatureOf secretKey (query str params)).toList) =
      before.toList ++ '&' :: (quotePlus "signature" ++ '=' :: after.toList) := by
    rw [← toList_signedQuery, h, quotePlus_signature, String.toList_append, String.toList_append,
      List.append_assoc]
    rfl
  have hkeys : "signature" ∉ (printed str params.sortedItems).map Prod.fst ∨
      '&' ∉ after.toList := by
    rw [printed_keys]
    refine hname.imp_left fun hfresh hmem => hfresh ?_
    exact (params.perm_sortedItems.map Prod.fst).subset hmem
  obtain ⟨hbefore, hafter⟩ := append_field_inj (and_not_mem_signatureOf _ _) hchars hkeys
  exact ⟨String.toList_inj.mp (hbefore.trans String.toList_ofList.symm),
    String.toList_inj.mp hafter⟩

end

/-- The parameters of the worked example of the documentation. -/
def marketOrder : Params String where
  items := [("type", "MARKET"), ("quoteOrderQty", "20"), ("symbol", "ETHUSDT"), ("side", "BUY"),
    ("timestamp", "1649404670162")]
  keys_nodup := by decide

example : signedQuery id "UuGuyEGt6ZEkpUObCYCmIfh0elYsZVh80jlYwpJuRZEw70t6vomMH7Sjmf94ztSI"
    marketOrder = "quoteOrderQty=20&side=BUY&symbol=ETHUSDT&timestamp=1649404670162&type=MARKET" ++
      "&signature=428a3c383bde514baff0d10d3c20e5adfaacaf799e324546dafe5ccc480dd827" := by
  decide +kernel

/-- Three numbers, in two orders. -/
def lettersBac : Params ℤ where
  items := [("b", 2), ("a", 1), ("c", 3)]
  keys_nodup := by decide

def lettersCab : Params ℤ where
  items := [("c", 3), ("a", 1), ("b", 2)]
  keys_nodup := by decide

/-- Both orders are signed as `a=1&b=2&c=3`. -/
theorem signed_query_unambiguous_letters : ∃ pairs,
    signedQuery toString "secret" lettersCab = signedQuery toString "secret" lettersBac ∧
    pairs.Perm [("b", "2"), ("a", "1"), ("c", "3")] ∧
    decode (signedQuery toString "secret" lettersBac).toList =
      some (pairs ++ [("signature", signatureOf "secret" "a=1&b=2&c=3")]) ∧
    (printed toString lettersCab.items).Perm (printed toString lettersBac.items) := by
  obtain ⟨horder, ⟨body, pairs, hpairs, -, hbody, hdecode⟩, hprinted⟩ :=
    signed_query_unambiguous toString "secret" lettersBac
  have hcab := horder lettersCab (by decide)
  have hform : query toString lettersBac = "a=1&b=2&c=3" := by decide +kernel
  have hsigned : signedQuery toString "secret" lettersBac =
      "a=1&b=2&c=3" ++ "&signature=" ++ signatureOf "secret" "a=1&b=2&c=3" := by
    rw [signedQuery, hform]
  obtain ⟨hbefore, -⟩ := hbody _ _ hsigned (.inl (by decide))
  rw [← hbefore] at hdecode
  have hitems : printed toString lettersBac.items = [("b", "2"), ("a", "1"), ("c", "3")] := by
    decide
  rw [hitems] at hpairs
  exact ⟨pairs, hcab, hpairs, hdecode, hprinted "secret" lettersCab hcab⟩

end MoneyWay
