import Mathlib.Algebra.BigOperators.Group.List.Basic
import Mathlib.Algebra.GroupWithZero.Nat
import Mathlib.Data.List.Nodup

/-!
# Tables with a primary key

A table is a list of rows in insertion order together with the proof that no
two rows share a key, so a table with a duplicate key cannot be built. `put` is
what an insert, an update by key and an upsert have in common: it replaces the
row with the same key, or appends.
-/

set_option autoImplicit false

namespace Keyed

variable {ρ : Type*} {κ : Type*} [DecidableEq κ]

/-- Replace the row with `r`'s key, or append `r`. -/
def putRow (key : ρ → κ) (r : ρ) : List ρ → List ρ
  | [] => [r]
  | x :: xs => if key x = key r then r :: xs else x :: putRow key r xs

theorem key_mem_putRow (key : ρ → κ) (r : ρ) (xs : List ρ) (k : κ) :
    k ∈ (putRow key r xs).map key ↔ k = key r ∨ k ∈ xs.map key := by
  induction xs with
  | nil => simp [putRow]
  | cons x xs ih =>
    by_cases hx : key x = key r
    · simp [putRow, hx]
    · simp only [putRow, hx, if_false, List.map_cons, List.mem_cons, ih]
      tauto

theorem putRow_nodup (key : ρ → κ) (r : ρ) (xs : List ρ) (h : (xs.map key).Nodup) :
    ((putRow key r xs).map key).Nodup := by
  induction xs with
  | nil => simp [putRow]
  | cons x xs ih =>
    simp only [List.map_cons, List.nodup_cons] at h
    by_cases hx : key x = key r
    · rw [hx] at h
      simpa only [putRow, if_pos hx, List.map_cons, List.nodup_cons] using h
    · simp only [putRow, if_neg hx, List.map_cons, List.nodup_cons, key_mem_putRow]
      exact ⟨fun hk => hk.elim hx h.1, ih h.2⟩

/-- A table whose rows are identified by `key`. -/
structure Table (key : ρ → κ) where
  rows : List ρ
  nodup : (rows.map key).Nodup

namespace Table

variable {key : ρ → κ}

def empty (key : ρ → κ) : Table key := ⟨[], List.nodup_nil⟩

def find? (t : Table key) (k : κ) : Option ρ := t.rows.find? fun r => key r = k

def put (t : Table key) (r : ρ) : Table key := ⟨putRow key r t.rows, putRow_nodup key r _ t.nodup⟩

def erase (t : Table key) (k : κ) : Table key :=
  ⟨t.rows.filter fun r => key r ≠ k, (List.filter_sublist.map key).nodup t.nodup⟩

omit [DecidableEq κ] in
@[ext] theorem ext {t u : Table key} (h : t.rows = u.rows) : t = u := by
  cases t; cases u; simpa using h

@[simp] theorem find?_empty (k : κ) : (empty key).find? k = none := rfl

theorem find?_eq_some {t : Table key} {k : κ} {r : ρ} :
    t.find? k = some r ↔ r ∈ t.rows ∧ key r = k := by
  constructor
  · intro h
    exact ⟨List.mem_of_find?_eq_some h, by simpa using List.find?_some h⟩
  · rintro ⟨hr, rfl⟩
    obtain ⟨xs, hd⟩ := t
    simp only [find?]
    induction xs with
    | nil => simp at hr
    | cons x xs ih =>
      simp only [List.map_cons, List.nodup_cons] at hd
      rcases List.mem_cons.mp hr with rfl | hr
      · simp
      · have hx : key x ≠ key r := fun he => hd.1 (he ▸ List.mem_map_of_mem hr)
        simpa [hx] using ih hd.2 hr

theorem find?_eq_none {t : Table key} {k : κ} :
    t.find? k = none ↔ ∀ r ∈ t.rows, key r ≠ k := by
  simp [find?]

theorem find?_of_mem {t : Table key} {r : ρ} (h : r ∈ t.rows) : t.find? (key r) = some r :=
  find?_eq_some.mpr ⟨h, rfl⟩

theorem mem_of_find? {t : Table key} {k : κ} {r : ρ} (h : t.find? k = some r) : r ∈ t.rows :=
  (find?_eq_some.mp h).1

theorem key_of_find? {t : Table key} {k : κ} {r : ρ} (h : t.find? k = some r) : key r = k :=
  (find?_eq_some.mp h).2

/-- Two rows with the same key are the same row. -/
theorem eq_of_key {t : Table key} {r s : ρ} (hr : r ∈ t.rows) (hs : s ∈ t.rows)
    (h : key r = key s) : r = s := by
  have hf := find?_of_mem hr
  rw [h, find?_of_mem hs] at hf
  exact (Option.some.inj hf).symm

omit [DecidableEq κ] in
/-- The only row with a property. -/
theorem filter_eq_singleton {t : Table key} {r : ρ} {p : ρ → Bool} (hr : r ∈ t.rows)
    (hp : p r = true) (honly : ∀ s ∈ t.rows, p s = true → s = r) : t.rows.filter p = [r] := by
  have hmem : ∀ s, s ∈ t.rows.filter p ↔ s = r := by
    intro s
    rw [List.mem_filter]
    constructor
    · exact fun ⟨hs, h⟩ => honly s hs h
    · rintro rfl
      exact ⟨hr, hp⟩
  have hnodup : (t.rows.filter p).Nodup := (List.Nodup.of_map key t.nodup).filter p
  exact List.perm_singleton.mp ((List.perm_ext_iff_of_nodup hnodup (List.nodup_singleton r)).mpr
    (by simpa using hmem))

theorem find?_put (t : Table key) (r : ρ) (k : κ) :
    (t.put r).find? k = if key r = k then some r else t.find? k := by
  obtain ⟨xs, hd⟩ := t
  simp only [find?, put]
  induction xs with
  | nil => by_cases hk : key r = k <;> simp [putRow, hk]
  | cons x xs ih =>
    simp only [List.map_cons, List.nodup_cons] at hd
    have ih := ih hd.2
    by_cases hx : key x = key r
    · by_cases hk : key r = k
      · simp [putRow, hx, hk]
      · simp [putRow, hx, hk]
    · by_cases hk : key x = k
      · have hr : key r ≠ k := fun he => hx (hk.trans he.symm)
        rw [putRow, if_neg hx, if_neg hr]
        simp [hk]
      · simpa [putRow, hx, hk] using ih

@[simp] theorem find?_put_self (t : Table key) (r : ρ) : (t.put r).find? (key r) = some r := by
  rw [find?_put, if_pos rfl]

theorem find?_put_ne (t : Table key) {r : ρ} {k : κ} (h : key r ≠ k) :
    (t.put r).find? k = t.find? k := by
  rw [find?_put, if_neg h]

theorem mem_put {t : Table key} {r s : ρ} :
    s ∈ (t.put r).rows ↔ s = r ∨ s ∈ t.rows ∧ key s ≠ key r := by
  have hs : ∀ u : Table key, s ∈ u.rows ↔ u.find? (key s) = some s :=
    fun u => ⟨find?_of_mem, mem_of_find?⟩
  rw [hs, hs t, find?_put]
  by_cases hk : key r = key s
  · simp [hk, eq_comm]
  · rw [if_neg hk]
    constructor
    · exact fun h => Or.inr ⟨h, Ne.symm hk⟩
    · rintro (rfl | h)
      · exact absurd rfl hk
      · exact h.1

theorem rows_put_new {t : Table key} {r : ρ} (h : t.find? (key r) = none) :
    (t.put r).rows = t.rows ++ [r] := by
  rw [find?_eq_none] at h
  obtain ⟨xs, hd⟩ := t
  simp only [put] at h ⊢
  clear hd
  induction xs with
  | nil => rfl
  | cons x xs ih =>
    have hx := h x List.mem_cons_self
    rw [putRow, if_neg hx, ih fun y hy => h y (List.mem_cons_of_mem _ hy), List.cons_append]

/-- A new row counts for itself. -/
theorem countP_put_new {t : Table key} {r : ρ} (h : t.find? (key r) = none) (p : ρ → Bool) :
    (t.put r).rows.countP p = t.rows.countP p + if p r then 1 else 0 := by
  rw [rows_put_new h, List.countP_append, List.countP_singleton]

/-- A row that replaces another takes its place. -/
theorem exists_put_old {t : Table key} {r old : ρ} (h : t.find? (key r) = some old) :
    ∃ as bs, t.rows = as ++ old :: bs ∧ (t.put r).rows = as ++ r :: bs := by
  obtain ⟨hold, hkey⟩ := find?_eq_some.mp h
  obtain ⟨xs, hd⟩ := t
  simp only [put] at hold ⊢
  clear h
  induction xs with
  | nil => cases hold
  | cons x xs ih =>
    rw [List.map_cons, List.nodup_cons] at hd
    by_cases hx : key x = key r
    · have he : old = x := by
        rcases List.mem_cons.mp hold with he | hmem
        · exact he
        · have hk : key old ∈ xs.map key := List.mem_map_of_mem hmem
          rw [hkey, ← hx] at hk
          exact absurd hk hd.1
      exact ⟨[], xs, by rw [he]; rfl, by rw [putRow, if_pos hx]; rfl⟩
    · have hmem : old ∈ xs := by
        rcases List.mem_cons.mp hold with rfl | hmem
        · exact absurd hkey hx
        · exact hmem
      obtain ⟨as, bs, hxs, hput⟩ := ih hd.2 hmem
      exact ⟨x :: as, bs, by rw [hxs]; rfl, by rw [putRow, if_neg hx, hput]; rfl⟩

theorem countP_put_old {t : Table key} {r old : ρ} (h : t.find? (key r) = some old)
    (p : ρ → Bool) :
    (t.put r).rows.countP p + (if p old then 1 else 0) =
      t.rows.countP p + if p r then 1 else 0 := by
  obtain ⟨as, bs, hrows, hput⟩ := exists_put_old h
  rw [hrows, hput, List.countP_append, List.countP_append, List.countP_cons, List.countP_cons]
  omega

theorem keys_put_old {t : Table key} {r old : ρ} (h : t.find? (key r) = some old) :
    (t.put r).rows.map key = t.rows.map key := by
  have hkey := key_of_find? h
  obtain ⟨as, bs, hrows, hput⟩ := exists_put_old h
  rw [hrows, hput, List.map_append, List.map_append, List.map_cons, List.map_cons, hkey]

theorem find?_erase (t : Table key) (j k : κ) :
    (t.erase j).find? k = if j = k then none else t.find? k := by
  by_cases hk : j = k
  · subst hk
    rw [if_pos rfl, find?_eq_none]
    intro r hr
    simpa using (List.mem_filter.mp hr).2
  · rw [if_neg hk]
    cases h : t.find? k with
    | none =>
      rw [find?_eq_none] at h ⊢
      exact fun r hr => h r (List.mem_of_mem_filter hr)
    | some r =>
      rw [find?_eq_some] at h ⊢
      refine ⟨List.mem_filter.mpr ⟨h.1, ?_⟩, h.2⟩
      simpa [h.2] using Ne.symm hk

theorem mem_erase {t : Table key} {k : κ} {r : ρ} :
    r ∈ (t.erase k).rows ↔ r ∈ t.rows ∧ key r ≠ k := by
  simp [erase]

/-- A row that is put in and erased. -/
theorem erase_put_self (t : Table key) (r : ρ) : (t.put r).erase (key r) = t.erase (key r) := by
  apply ext
  obtain ⟨xs, hd⟩ := t
  simp only [put, erase]
  clear hd
  induction xs with
  | nil => simp [putRow]
  | cons x xs ih =>
    by_cases hx : key x = key r
    · simp [putRow, hx]
    · simpa [putRow, hx] using ih

theorem length_erase_lt {t : Table key} {r : ρ} (h : r ∈ t.rows) :
    (t.erase (key r)).rows.length < t.rows.length :=
  List.length_filter_lt_length_iff_exists.mpr ⟨r, h, by simp⟩

/-- The rows whose keys are wanted. -/
def restrict (t : Table key) (p : κ → Bool) : Table key :=
  ⟨t.rows.filter fun r => p (key r), (List.filter_sublist.map key).nodup t.nodup⟩

omit [DecidableEq κ] in
theorem mem_restrict {t : Table key} {p : κ → Bool} {r : ρ} :
    r ∈ (t.restrict p).rows ↔ r ∈ t.rows ∧ p (key r) = true := List.mem_filter

theorem find?_restrict (t : Table key) (p : κ → Bool) (k : κ) :
    (t.restrict p).find? k = if p k then t.find? k else none := by
  split
  · next hp =>
    cases h : t.find? k with
    | none =>
      rw [find?_eq_none] at h ⊢
      exact fun r hr => h r (mem_restrict.mp hr).1
    | some r =>
      rw [find?_eq_some] at h ⊢
      exact ⟨mem_restrict.mpr ⟨h.1, h.2 ▸ hp⟩, h.2⟩
  · next hp =>
    rw [find?_eq_none]
    rintro r hr rfl
    exact hp (mem_restrict.mp hr).2

theorem restrict_put (t : Table key) (r : ρ) (p : κ → Bool) :
    (t.put r).restrict p = if p (key r) then (t.restrict p).put r else t.restrict p := by
  obtain ⟨xs, hd⟩ := t
  have hrows : (putRow key r xs).filter (fun x => p (key x)) =
      if p (key r) then putRow key r (xs.filter fun x => p (key x))
      else xs.filter fun x => p (key x) := by
    clear hd
    induction xs with
    | nil => cases hp : p (key r) <;> simp [putRow, hp]
    | cons x xs ih =>
      by_cases hx : key x = key r
      · cases hp : p (key r) <;> simp [putRow, hx, hp]
      · cases hp : p (key r) <;> cases hpx : p (key x) <;>
          simp [putRow, hx, hp, hpx, ih]
  apply ext
  rw [restrict]
  simp only [put]
  rw [hrows]
  split <;> rfl

theorem restrict_erase (t : Table key) (k : κ) (p : κ → Bool) :
    (t.erase k).restrict p = (t.restrict p).erase k := by
  apply ext
  simp only [restrict, erase, List.filter_filter, Bool.and_comm]

/-- Erasing an unwanted row does not show. -/
theorem erase_restrict_of_not {t : Table key} {k : κ} {p : κ → Bool} (h : p k = false) :
    (t.restrict p).erase k = t.restrict p := by
  apply ext
  rw [erase, List.filter_eq_self]
  intro r hr
  have hp := (mem_restrict.mp hr).2
  rw [decide_eq_true_eq]
  rintro rfl
  rw [h] at hp
  cases hp

end Table

end Keyed
