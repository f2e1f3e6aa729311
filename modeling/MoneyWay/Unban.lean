import MoneyWay.Blacklisting
import MoneyWay.Sequential

/-!
# Adding an entry and removing it by its identifier

`add_blacklist_entry` answers with the identifier it has made up. When a row with
the type and the value is there already it is updated and keeps its own, so the
answer names no row and the entry cannot be removed by it.
-/

set_option autoImplicit false

namespace MoneyWay

open Keyed ReadCommitted Python Prog Sql

variable {unicode : Unicode} {r : BlacklistCreateRequest} {id : String} {s : Shared signature}

/-- The type and the normalised value. -/
def BlacklistCreateRequest.key (unicode : Unicode) (r : BlacklistCreateRequest) :
    BlacklistType × String := (r.type, normalForm unicode r.type r.value)

/-- The database can store the texts of the request. -/
def BlacklistCreateRequest.Accepted (unicode : Unicode) (r : BlacklistCreateRequest) : Prop :=
  fits [(255, some (normalForm unicode r.type r.value)), (255, some r.reason), (512, r.comment)] =
    true

instance : Decidable (r.Accepted unicode) := inferInstanceAs (Decidable (_ = true))

/-- No row has the identifier. -/
def Unused (id : String) (d : Database) : Prop := ∀ e ∈ d.blacklist.rows, e.id ≠ id

/-- Whenever the request answers with `id`, that is the identifier of the row of its type and
value, and removing it leaves everything but this row. -/
def Reversible (unicode : Unicode) (r : BlacklistCreateRequest) (id : String)
    (s : Shared signature) : Prop :=
  ∀ x s₁, Ends (bank unicode) (.addBlacklistEntry r) s (some (.ok (.added id))) x s₁ →
    (∃ e, s₁.db.blacklist.find? (r.key unicode) = some e ∧ e.id = id) ∧
      ∀ removed x₂ s₂, Alone (bank unicode) (removeBlacklistEntry id) {} s₁ (some removed) x₂ s₂ →
        removed = .ok true ∧ replay x₂.pending s₂.db =
          { s.db with blacklist := s.db.blacklist.erase (r.key unicode) }

theorem upsertBlacklist_eq {e : BlacklistEntry} {locked : Row → LockMode → Bool} {d : Database}
    (h : fits [(255, some e.value), (255, some e.reason), (512, e.comment)] = true) :
    upsertBlacklist e locked d = .ok { value := (), writes := [.blacklist (blacklisted d e)] } := by
  rw [upsertBlacklist, if_pos h, blacklisted]
  cases d.blacklist.find? e.key <;> rfl

/-- Adding an entry that can be stored succeeds. -/
theorem after_addBlacklistEntry (hr : r.Accepted unicode) :
    (program unicode (.addBlacklistEntry r)).After (bank unicode)
      (fun result x s' => s'.db = s.db ∧ ∃ id now, result = .ok (.added id) ∧
        x.pending = [.blacklist (blacklisted s.db (blacklistEntry unicode r id now))]) {} s := by
  intro y _ i
  refine after_now_bind fun z _ => after_exec_bind (fun e w hq => ?_) fun eff w hq _ => ?_
  · have hok := (upsertBlacklist_eq (e := blacklistEntry unicode r i z.now) hr).symm.trans hq
    cases hok
  · have hok := (upsertBlacklist_eq (e := blacklistEntry unicode r i z.now) hr).symm.trans hq
    cases hok
    exact fun _ _ => ⟨rfl, i, _, rfl, rfl⟩

/-- The request can answer with any identifier. -/
theorem exists_added (hr : r.Accepted unicode) (id : String) (s : Shared signature) :
    ∃ x s₁, Ends (bank unicode) (.addBlacklistEntry r) s (some (.ok (.added id))) x s₁ := by
  have hq : upsertBlacklist (blacklistEntry unicode r id s.ext.now) (fun _ _ => false) s.db = _ :=
    upsertBlacklist_eq hr
  have ha : ∃ x, Alone (bank unicode) (program unicode (.addBlacklistEntry r)) {} s
      (some (.ok (.added id))) x s := by
    apply Exists.intro
    apply Alone.fresh
    apply Alone.clock
    apply Alone.stmt (S := bank unicode) hq
    exact Alone.done
  obtain ⟨x, ha⟩ := ha
  exact ⟨x, _, ⟨ha⟩⟩

theorem ends_addBlacklistEntry (hr : r.Accepted unicode) {x : Txn signature} {s₁ : Shared signature}
    (h : Ends (bank unicode) (.addBlacklistEntry r) s (some (.ok (.added id))) x s₁) :
    ∃ now, s₁.db = { s.db with
      blacklist := s.db.blacklist.put (blacklisted s.db (blacklistEntry unicode r id now)) } := by
  obtain ⟨ha⟩ := h
  obtain ⟨hdb, id', now, hid, hpending⟩ :=
    (after_iff (S := bank unicode)).mp (after_addBlacklistEntry hr) _ _ _ ha
  cases hid
  refine ⟨now, ?_⟩
  show replay x.pending _ = _
  rw [hpending, hdb]
  rfl

/-- Removing deletes the row with the identifier, if there is one. -/
theorem alone_removeBlacklistEntry {removed : Except Error Bool} {x : Txn signature}
    {s' : Shared signature}
    (h : Alone (bank unicode) (removeBlacklistEntry id) {} s (some removed) x s') :
    s'.db = s.db ∧ ∃ eff, deleteBlacklist id (fun _ _ => false) s.db = .ok eff ∧
      removed = .ok eff.value ∧ x.pending = eff.writes := by
  have hafter : (removeBlacklistEntry id).After (bank unicode) (fun removed x s' =>
      s'.db = s.db ∧ ∃ eff, deleteBlacklist id (fun _ _ => false) s.db = .ok eff ∧
        removed = .ok eff.value ∧ x.pending = eff.writes) {} s := by
    refine after_exec (fun e y hq => ?_) fun eff y z hq => ⟨rfl, eff, hq, rfl, rfl⟩
    have hq : deleteBlacklist id (fun _ _ => false) s.db = .error e := hq
    rw [deleteBlacklist] at hq
    split at hq <;> cases hq
  exact (after_iff (S := bank unicode)).mp hafter _ _ _ h

/-- The only row with an identifier. -/
theorem deleteBlacklist_of_only {locked : Row → LockMode → Bool} {d : Database} {e : BlacklistEntry}
    (he : e ∈ d.blacklist.rows) (honly : ∀ o ∈ d.blacklist.rows, o.id = e.id → o = e) :
    deleteBlacklist e.id locked d = .ok { value := true, writes := [.unblacklist e.key] } := by
  rw [deleteBlacklist]
  cases hfind : d.blacklist.rows.find? fun o => o.id = e.id with
  | none => simpa using List.find?_eq_none.mp hfind e he
  | some o =>
    have hid : o.id = e.id := by simpa using List.find?_some hfind
    rw [honly o (List.mem_of_find?_eq_some hfind) hid]

theorem deleteBlacklist_of_unused {locked : Row → LockMode → Bool} {d : Database}
    (h : Unused id d) : deleteBlacklist id locked d = .ok { value := false } := by
  have hfind : (d.blacklist.rows.find? fun o => o.id = id) = none :=
    List.find?_eq_none.mpr fun o ho => by simpa using h o ho
  rw [deleteBlacklist, hfind]

/-- A row that was not there is the row of the request, and goes when it is removed. -/
theorem reversible_of_none (hr : r.Accepted unicode) (hid : Unused id s.db)
    (hnone : s.db.blacklist.find? (r.key unicode) = none) : Reversible unicode r id s := by
  intro x s₁ hends
  obtain ⟨now, hdb⟩ := ends_addBlacklistEntry hr hends
  have hnew : blacklisted s.db (blacklistEntry unicode r id now) =
      blacklistEntry unicode r id now := by
    have hfind : s.db.blacklist.find? (blacklistEntry unicode r id now).key = none := hnone
    rw [blacklisted, hfind]
  rw [hnew] at hdb
  have hrows : s₁.db.blacklist.rows = s.db.blacklist.rows ++ [blacklistEntry unicode r id now] := by
    rw [hdb]
    exact Table.rows_put_new hnone
  refine ⟨⟨blacklistEntry unicode r id now, ?_, rfl⟩, fun removed x₂ s₂ ha => ?_⟩
  · rw [hdb]
    exact Table.find?_put_self _ _
  · have hdelete : deleteBlacklist id (fun _ _ => false) s₁.db =
        .ok { value := true, writes := [.unblacklist (r.key unicode)] } := by
      refine deleteBlacklist_of_only (e := blacklistEntry unicode r id now) ?_ fun o ho he => ?_
      · rw [hrows]
        exact List.mem_append_right _ (List.mem_singleton_self _)
      · rw [hrows, List.mem_append, List.mem_singleton] at ho
        exact ho.resolve_left fun hold => hid o hold he
    obtain ⟨hdb₂, eff, heff, rfl, hpending⟩ := alone_removeBlacklistEntry ha
    rw [hdelete] at heff
    cases heff
    refine ⟨rfl, ?_⟩
    have herase : (s.db.blacklist.put (blacklistEntry unicode r id now)).erase (r.key unicode) =
        s.db.blacklist.erase (r.key unicode) := Table.erase_put_self _ _
    rw [hpending, hdb₂, hdb, ← herase]
    rfl

/-- A row that was there keeps its identifier: no row has the one the request answers with. -/
theorem unused_of_some (hr : r.Accepted unicode) (hid : Unused id s.db) {old : BlacklistEntry}
    (hold : s.db.blacklist.find? (r.key unicode) = some old) {x : Txn signature}
    {s₁ : Shared signature}
    (hends : Ends (bank unicode) (.addBlacklistEntry r) s (some (.ok (.added id))) x s₁) :
    s₁.db.blacklist.find? (r.key unicode) =
        some { old with reason := r.reason, comment := r.comment } ∧ Unused id s₁.db := by
  obtain ⟨now, hdb⟩ := ends_addBlacklistEntry hr hends
  have hupdate : blacklisted s.db (blacklistEntry unicode r id now) =
      { old with reason := r.reason, comment := r.comment } := by
    have hfind : s.db.blacklist.find? (blacklistEntry unicode r id now).key = some old := hold
    rw [blacklisted, hfind]
    rfl
  have hkey : ({ old with reason := r.reason, comment := r.comment } : BlacklistEntry).key =
      r.key unicode := by
    have hkey := Table.key_of_find? hold
    exact hkey
  rw [hupdate] at hdb
  constructor
  · rw [hdb, ← hkey]
    exact Table.find?_put_self _ _
  · intro e he
    rw [hdb] at he
    cases Table.mem_put.mp he with
    | inl hnew =>
      rw [hnew]
      exact hid old (Table.mem_of_find? hold)
    | inr h => exact hid e h.1

/-- The entry cannot be removed by the identifier of the answer, and stays. -/
theorem kept_of_some (hr : r.Accepted unicode) (hid : Unused id s.db) {old : BlacklistEntry}
    (hold : s.db.blacklist.find? (r.key unicode) = some old) {x : Txn signature}
    {s₁ : Shared signature}
    (hends : Ends (bank unicode) (.addBlacklistEntry r) s (some (.ok (.added id))) x s₁)
    {removed : Except Error Bool} {x₂ : Txn signature} {s₂ : Shared signature}
    (ha : Alone (bank unicode) (removeBlacklistEntry id) {} s₁ (some removed) x₂ s₂) :
    removed = .ok false ∧ replay x₂.pending s₂.db = s₁.db := by
  obtain ⟨-, hunused⟩ := unused_of_some hr hid hold hends
  obtain ⟨hdb, eff, heff, rfl, hpending⟩ := alone_removeBlacklistEntry ha
  rw [deleteBlacklist_of_unused hunused] at heff
  cases heff
  rw [hpending, hdb]
  exact ⟨rfl, rfl⟩

theorem not_reversible_of_some (hr : r.Accepted unicode) (hid : Unused id s.db)
    {old : BlacklistEntry} (hold : s.db.blacklist.find? (r.key unicode) = some old) :
    ¬ Reversible unicode r id s := by
  intro h
  obtain ⟨x, s₁, hends⟩ := exists_added hr id s
  obtain ⟨hstored, -⟩ := unused_of_some hr hid hold hends
  obtain ⟨⟨e, he, heid⟩, -⟩ := h x s₁ hends
  rw [hstored] at he
  cases he
  exact hid old (Table.mem_of_find? hold) heid

/-- Adding and removing are inverse exactly for an entry that was not listed. -/
theorem reversible_iff (hr : r.Accepted unicode) (hid : Unused id s.db) :
    Reversible unicode r id s ↔ s.db.blacklist.find? (r.key unicode) = none := by
  constructor
  · intro h
    cases hfind : s.db.blacklist.find? (r.key unicode) with
    | none => rfl
    | some old => exact absurd h (not_reversible_of_some hr hid hfind)
  · exact reversible_of_none hr hid

def ipBan : BlacklistCreateRequest where
  type := .ip
  value := " 1.2.3.4"
  reason := "manual"
  comment := some "support"

theorem reversible_iff_ipBan : Reversible .ascii ipBan "entry" launch :=
  (reversible_iff (by decide) (fun _ he => by cases he)).mpr rfl

/-- The address is listed, under another identifier. -/
def listed : Shared signature :=
  { launch with db := { launch.db with
    blacklist := launch.db.blacklist.put (blacklistEntry .ascii ipBan "chargeback" 0) } }

theorem not_reversible : ¬ ∀ (unicode : Unicode) (r : BlacklistCreateRequest) (id : String)
    (s : Shared signature), r.Accepted unicode → Unused id s.db → Reversible unicode r id s := by
  intro h
  have hid : Unused "entry" listed.db := by
    intro e he
    obtain rfl : e = blacklistEntry .ascii ipBan "chargeback" 0 := List.mem_singleton.mp he
    decide
  have hr : ipBan.Accepted .ascii := by decide
  exact not_reversible_of_some hr hid rfl (h .ascii ipBan "entry" listed hr hid)

end MoneyWay
