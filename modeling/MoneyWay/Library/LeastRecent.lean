import Mathlib.Data.Finset.Card
import MoneyWay.Library.KeyedTable

/-!
# Keeping the keys used last

A bounded set of keys that drops the one whose last use is longest ago. It holds
the first `cap` keys of the order of last use (`kept_eq`), so a key is dropped
exactly when `cap` other keys have been used since (`mem_kept_iff`). A table in
insertion order that moves a used row to its end and drops its first row when it
has grown too long is such a set (`reverse_keys_moveToEnd`,
`reverse_keys_put_new`).
-/

set_option autoImplicit false

namespace LeastRecent

variable {κ : Type*} [DecidableEq κ]

/-- The keys used, the last use first. -/
def order : List κ → List κ
  | [] => []
  | k :: earlier => k :: (order earlier).erase k

/-- A use of `k` when at most `cap` keys are kept. -/
def touch (cap : ℕ) (k : κ) (keys : List κ) : List κ := (k :: keys.erase k).take cap

/-- The keys kept after the uses listed, the last one first. -/
def kept (cap : ℕ) : List κ → List κ
  | [] => []
  | k :: earlier => touch cap k (kept cap earlier)

theorem take_erase_take (n : ℕ) (k : κ) (l : List κ) :
    ((l.take (n + 1)).erase k).take n = (l.erase k).take n := by
  induction l generalizing n with
  | nil => simp
  | cons x xs ih =>
    by_cases hx : x = k
    · subst hx
      simp
    · rw [List.take_succ_cons, List.erase_cons_tail (by simpa using hx),
        List.erase_cons_tail (by simpa using hx)]
      cases n with
      | zero => rfl
      | succ n => rw [List.take_succ_cons, List.take_succ_cons, ih]

theorem touch_take (cap : ℕ) (k : κ) (l : List κ) :
    touch cap k (l.take cap) = touch cap k l := by
  cases cap with
  | zero => rfl
  | succ n =>
    show k :: ((l.take (n + 1)).erase k).take n = k :: (l.erase k).take n
    rw [take_erase_take]

/-- What is kept is a prefix of the order of last use. -/
theorem kept_eq (cap : ℕ) (uses : List κ) : kept cap uses = (order uses).take cap := by
  induction uses with
  | nil => simp [kept, order]
  | cons k earlier ih => rw [kept, ih, touch_take, touch, order]

theorem length_kept_le (cap : ℕ) (uses : List κ) : (kept cap uses).length ≤ cap := by
  rw [kept_eq, List.length_take]
  exact min_le_left _ _

/-- Since its last use the keys used come before `k`, each of them once. -/
theorem exists_order_eq {k : κ} {since : List κ} (earlier : List κ) (hk : k ∉ since) :
    ∃ front older, order (since ++ k :: earlier) = front ++ k :: older ∧
      front.Nodup ∧ front.toFinset = since.toFinset := by
  induction since with
  | nil => exact ⟨[], _, rfl, List.nodup_nil, rfl⟩
  | cons b since ih =>
    obtain ⟨front, older, horder, hnodup, hset⟩ := ih fun h => hk (List.mem_cons_of_mem _ h)
    have hfront : (b :: front.erase b).Nodup ∧
        (b :: front.erase b).toFinset = (b :: since).toFinset := by
      constructor
      · exact List.nodup_cons.mpr ⟨hnodup.not_mem_erase, hnodup.erase b⟩
      · ext x
        have hx : x ∈ front ↔ x ∈ since := by
          rw [← List.mem_toFinset, hset, List.mem_toFinset]
        by_cases hxb : x = b
        · simp [hxb]
        · simp [hxb, List.mem_erase_of_ne hxb, hx]
    by_cases hb : b ∈ front
    · refine ⟨b :: front.erase b, older, ?_, hfront⟩
      show b :: (order (since ++ k :: earlier)).erase b = _
      rw [horder, List.erase_append_left _ hb]
      rfl
    · have hbk : k ≠ b := fun h => hk (h ▸ List.mem_cons_self)
      refine ⟨b :: front.erase b, older.erase b, ?_, hfront⟩
      show b :: (order (since ++ k :: earlier)).erase b = _
      rw [horder, List.erase_append_right _ hb, List.erase_cons_tail (by simpa using hbk),
        List.erase_of_not_mem hb]
      rfl

/-- A key is kept as long as fewer than `cap` others have been used since. -/
theorem mem_kept_iff {cap : ℕ} {k : κ} {since : List κ} (earlier : List κ) (hk : k ∉ since) :
    k ∈ kept cap (since ++ k :: earlier) ↔ since.toFinset.card < cap := by
  obtain ⟨front, older, horder, hnodup, hset⟩ := exists_order_eq earlier hk
  have hlen : since.toFinset.card = front.length := by
    rw [← hset, List.toFinset_card_of_nodup hnodup]
  have hfront : k ∉ front := by
    rw [← List.mem_toFinset, hset, List.mem_toFinset]
    exact hk
  rw [kept_eq, horder, hlen]
  constructor
  · intro h
    by_contra hcap
    rw [List.take_append_of_le_length (by omega)] at h
    exact hfront (List.mem_of_mem_take h)
  · intro hcap
    rw [List.take_append, show cap - front.length = cap - front.length - 1 + 1 by omega,
      List.take_succ_cons]
    simp

end LeastRecent

/-! ## Tables in order of last use -/

namespace Keyed.Table

open LeastRecent

variable {ρ κ : Type*} [DecidableEq κ] {key : ρ → κ}

def keys (t : Table key) : List κ := t.rows.map key

/-- The row of a key goes to the end. -/
def moveToEnd (t : Table key) (k : κ) : Table key :=
  match t.find? k with
  | none => t
  | some r => (t.erase k).put r

/-- The first row goes. -/
def popFirst (t : Table key) : Table key :=
  ⟨t.rows.tail, ((List.tail_sublist _).map key).nodup t.nodup⟩

theorem mem_keys {t : Table key} {k : κ} : k ∈ t.keys ↔ (t.find? k).isSome = true := by
  constructor
  · intro h
    obtain ⟨r, hr, hkey⟩ := List.mem_map.mp h
    rw [find?_eq_some.mpr ⟨hr, hkey⟩]
    rfl
  · intro h
    obtain ⟨r, hr⟩ := Option.isSome_iff_exists.mp h
    exact List.mem_map.mpr ⟨r, find?_eq_some.mp hr⟩

theorem keys_put_new {t : Table key} {r : ρ} (h : t.find? (key r) = none) :
    (t.put r).keys = t.keys ++ [key r] := by
  rw [keys, rows_put_new h, List.map_append]
  rfl

theorem keys_erase (t : Table key) (k : κ) : (t.erase k).keys = t.keys.erase k := by
  rw [keys, keys, erase, List.Nodup.erase_eq_filter t.nodup, List.filter_map]
  congr 1
  apply List.filter_congr
  intro r _
  by_cases h : key r = k <;> simp [h]

theorem find?_moveToEnd (t : Table key) (k j : κ) : (t.moveToEnd k).find? j = t.find? j := by
  rw [moveToEnd]
  cases h : t.find? k with
  | none => rfl
  | some r =>
    have hkey : key r = k := key_of_find? h
    show ((t.erase k).put r).find? j = _
    rw [find?_put, find?_erase, hkey]
    by_cases hj : k = j
    · rw [if_pos hj, ← hj, h]
    · rw [if_neg hj, if_neg hj]

theorem find?_popFirst {t : Table key} {k : κ} (h : k ∈ t.popFirst.keys) :
    t.popFirst.find? k = t.find? k := by
  obtain ⟨r, hr, hkey⟩ := List.mem_map.mp h
  rw [find?_eq_some.mpr ⟨hr, hkey⟩, find?_eq_some.mpr ⟨List.mem_of_mem_tail hr, hkey⟩]

/-- The use of a key that is there. -/
theorem reverse_keys_moveToEnd {t : Table key} {k : κ} {r : ρ} (h : t.find? k = some r) {cap : ℕ}
    (hcap : t.keys.length ≤ cap) :
    (t.moveToEnd k).keys.reverse = touch cap k t.keys.reverse := by
  have hkey : key r = k := key_of_find? h
  have hmem : k ∈ t.keys := mem_keys.mpr (by rw [h]; rfl)
  have hnodup : t.keys.Nodup := t.nodup
  have hmove : (t.moveToEnd k).keys = t.keys.erase k ++ [k] := by
    have hnew : (t.erase k).find? (key r) = none := by rw [find?_erase, hkey, if_pos rfl]
    rw [moveToEnd, h]
    show ((t.erase k).put r).keys = _
    rw [keys_put_new hnew, keys_erase, hkey]
  have hreverse : (t.keys.erase k).reverse = t.keys.reverse.erase k := by
    rw [List.Nodup.erase_eq_filter hnodup,
      List.Nodup.erase_eq_filter (List.nodup_reverse.mpr hnodup), List.filter_reverse]
  have hlen : (k :: t.keys.reverse.erase k).length ≤ cap := by
    have hpos := List.length_pos_of_mem hmem
    rw [List.length_cons, List.length_erase_of_mem (List.mem_reverse.mpr hmem),
      List.length_reverse]
    omega
  rw [hmove, List.reverse_append, hreverse, touch, List.take_of_length_le hlen]
  rfl

/-- The first use of a key: when it is one too many the first row goes. -/
theorem reverse_keys_put_new {t : Table key} {r : ρ} (h : t.find? (key r) = none) {cap : ℕ}
    (hcap : t.keys.length ≤ cap) :
    (if (t.put r).keys.length > cap then (t.put r).popFirst else t.put r).keys.reverse =
      touch cap (key r) t.keys.reverse := by
  have hput : (t.put r).keys = t.keys ++ [key r] := keys_put_new h
  have hlen : (t.put r).keys.length = t.keys.length + 1 := by
    rw [hput, List.length_append, List.length_singleton]
  have hmem : key r ∉ t.keys.reverse := by
    rw [List.mem_reverse, mem_keys, h]
    simp
  rw [touch, List.erase_of_not_mem hmem]
  by_cases hfull : t.keys.length = cap
  · have hpop : (t.put r).popFirst.keys = (t.keys ++ [key r]).tail := by
      rw [← hput]
      exact List.map_tail
    rw [if_pos (by omega), hpop, ← List.dropLast_reverse, List.reverse_append,
      List.dropLast_eq_take]
    simp [hfull]
  · have hle : (key r :: t.keys.reverse).length ≤ cap := by
      rw [List.length_cons, List.length_reverse]
      omega
    rw [if_neg (by omega), hput, List.reverse_append, List.take_of_length_le hle]
    rfl

end Keyed.Table
