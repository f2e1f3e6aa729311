import MoneyWay.Outcomes

/-!
# Rules for the statements of a session

What a session knows at its next statement: the rows it has locked are as they were,
transactions and transfers are still there, and the database it sees is the committed
one with its own writes. For the audit log, which every handler writes to, there is a
rule of its own.
-/

set_option autoImplicit false

namespace MoneyWay

open Keyed ReadCommitted Python Prog Sql

variable {unicode : Unicode} {j : Job} {x : Txn signature} {s s' : Shared signature}
  {held : List (Row × LockMode)}

section Later

variable (h : (payments unicode).Later held s s')

include h

theorem later_transaction {id : String} {m : LockMode} (hm : (.transaction id, m) ∈ held)
    (hp : m.protects = true := by rfl) :
    s'.db.transactions.find? id = s.db.transactions.find? id :=
  Database.row_transaction (h.rows _ m hm hp)

theorem later_transfer {id : String} {m : LockMode} (hm : (.bingxTransfer id, m) ∈ held)
    (hp : m.protects = true := by rfl) :
    s'.db.bingxTransfers.find? id = s.db.bingxTransfers.find? id :=
  Database.row_bingxTransfer (h.rows _ m hm hp)

theorem later_promoCode {id : String} {m : LockMode} (hm : (.promoCode id, m) ∈ held)
    (hp : m.protects = true := by rfl) :
    s'.db.promoCodes.find? id = s.db.promoCodes.find? id :=
  Database.row_promoCode (h.rows _ m hm hp)

theorem later_blacklist {key : BlacklistType × String} {m : LockMode}
    (hm : (.blacklist key, m) ∈ held) (hp : m.protects = true := by rfl) :
    s'.db.blacklist.find? key = s.db.blacklist.find? key :=
  Database.row_blacklist (h.rows _ m hm hp)

theorem later_persists : Persists s.db s'.db :=
  h.leads.lift (r := fun s s' => Persists s.db s'.db) (fun t => Persists.refl t.db)
    (fun _ _ _ => Persists.trans) fun _ _ (hg : Guar _ _) => hg.db.persists

theorem later_users : s'.db.users = s.db.users := (later_persists h).users

/-- The clock does not go back. -/
theorem later_clock : s.ext.now ≤ s'.ext.now :=
  h.leads.lift (r := fun s s' : Shared signature => s.ext.now ≤ s'.ext.now) (fun _ => le_refl _)
    (fun _ _ _ => le_trans) fun _ _ (hg : Guar _ _) => hg.now

end Later

section Asks

theorem Asks.nil : Asks j x [] s := by simp [Asks]

/-- The first statement of a session may ask for anything. -/
theorem Asks.first {wanted : List (Row × LockMode)} (h : x.held = []) : Asks j x wanted s :=
  fun _ _ => .inr (.inl h)

theorem Asks.covered {r : Row} {n : LockMode} (m : LockMode) (hm : (r, m) ∈ x.held)
    (hc : m.covers n = true := by rfl) : Asks j x [(r, n)] s := by
  intro l hl
  obtain rfl := List.mem_singleton.mp hl
  exact .inl ⟨m, hm, hc⟩

theorem Asks.queue {r : Row} {n : LockMode} (h : Queues x.held r s j) :
    Asks j x [(r, n)] s := by
  intro l hl
  obtain rfl := List.mem_singleton.mp hl
  exact .inr (.inr h)

end Asks

/-- A statement of a session. -/
theorem wp_exec {β : Type} {q : Statement β} {Q : β → Txn signature → Shared signature → Prop}
    (h : ∀ s', (payments unicode).Later x.held s s' → ∀ blocked eff,
      q blocked (replay x.pending s'.db) = .ok eff →
        Asks j x (Effect.wanted (σ := signature) eff) s' ∧ Q eff.value (x.executed s' eff) s') :
    (payments unicode).Wp (bank unicode) j (exec q) Q x s := Contract.Wp.exec h

/-- A reading of the clock. -/
theorem wp_clock {α : Type} {f : ℤ → Handler α}
    {Q : α → Txn signature → Shared signature → Prop}
    (h : ∀ s', (payments unicode).Later x.held s s' →
      (payments unicode).Wp (bank unicode) j (f s'.ext.now) Q x s') :
    (payments unicode).Wp (bank unicode) j (Prog.now >>= f) Q x s := Contract.Wp.clock h

/-- A reading of the clock whose value does not matter. -/
theorem wp_now {α : Type} {f : ℤ → Handler α}
    {Q : α → Txn signature → Shared signature → Prop}
    (h : ∀ s' now, (payments unicode).Later x.held s s' →
      (payments unicode).Wp (bank unicode) j (f now) Q x s') :
    (payments unicode).Wp (bank unicode) j (Prog.now >>= f) Q x s := Contract.Wp.now h

/-- A fresh identifier, whatever it is. -/
theorem wp_uuid {α : Type} {f : String → Handler α}
    {Q : α → Txn signature → Shared signature → Prop}
    (h : ∀ id, (payments unicode).Wp (bank unicode) j (f id) Q (x.given id) s) :
    (payments unicode).Wp (bank unicode) j (uuid >>= f) Q x s := Contract.Wp.uuid h

theorem wp_raise {α : Type} {e : Error} {Q : α → Txn signature → Shared signature → Prop} :
    (payments unicode).Wp (bank unicode) j (raise e) Q x s := trivial

/-- The audit log: one more row, and a key-share lock on the transaction it names. -/
theorem wp_writeAuditLog {eventType : EventType} {userId transactionId : Option String}
    {payload : Details} {ipAddress deviceFingerprint userAgent : Option String}
    {Q : Unit → Txn signature → Shared signature → Prop}
    (h : ∀ s' now, (payments unicode).Later x.held s s' →
      Asks j x (keyShare transactionId) s' ∧
      Q () (x.executed s' {
        value := ()
        writes := [.audit (auditEntry eventType userId transactionId payload ipAddress
          deviceFingerprint userAgent now)]
        locks := keyShare transactionId }) s') :
    (payments unicode).Wp (bank unicode) j (writeAuditLog eventType userId transactionId payload
      ipAddress deviceFingerprint userAgent) Q x s := by
  refine wp_now fun s₁ now h₁ => wp_exec fun s₂ h₂ blocked eff hq => ?_
  obtain rfl := insertAuditLog_ok hq
  obtain ⟨ha, hQ⟩ := h s₂ now (h₁.trans h₂ fun _ hm => hm)
  exact ⟨by simpa [Effect.wanted, writeLocks, Write.target, auditEntry] using ha, hQ⟩

theorem mem_releaseWrites {d : Database} {t : Transaction} {w : Write}
    (h : w ∈ releaseWrites d t) : ∃ p, w = .promoCode p := by
  unfold releaseWrites at h
  split at h
  · simp at h
  · split at h
    · exact ⟨_, List.mem_singleton.mp h⟩
    · simp at h

/-- A release depends on the promo codes and on the transaction's code only. -/
theorem releaseWrites_congr {d d' : Database} {t t' : Transaction}
    (hd : d'.promoCodes = d.promoCodes) (ht : t'.promoCodeId = t.promoCodeId) :
    releaseWrites d' t' = releaseWrites d t := by
  simp only [releaseWrites, hd, ht]

theorem key_blacklisted (d : Database) (e : BlacklistEntry) : (blacklisted d e).key = e.key := by
  unfold blacklisted
  split
  · next old hf =>
    have hk := Table.key_of_find? hf
    exact hk
  · rfl

/-- An upsert depends on the entry that is there only. -/
theorem blacklisted_congr {d d' : Database} {e : BlacklistEntry}
    (h : d'.blacklist.find? e.key = d.blacklist.find? e.key) :
    blacklisted d' e = blacklisted d e := by
  simp only [blacklisted, h]

/-- The release of the promo code of a transaction the session has written. -/
theorem wp_releasePromoCode {id : String} {t u : Transaction}
    {Q : Unit → Txn signature → Shared signature → Prop}
    (hview : ∀ s', (payments unicode).Later x.held s s' →
      (replay x.pending s'.db).transactions.find? id = some u ∧
        (replay x.pending s'.db).promoCodes = s'.db.promoCodes)
    (ht : u.promoCodeId = t.promoCodeId)
    (h : ∀ s', (payments unicode).Later x.held s s' →
      (∀ p, Asks j x [(.promoCode p, .noKeyUpdate)] s') ∧
        Q () (x.executed s' { value := (), writes := releaseWrites s'.db t }) s') :
    (payments unicode).Wp (bank unicode) j (releasePromoCode id) Q x s := by
  refine wp_exec fun s₁ h₁ blocked eff hq => ?_
  obtain ⟨hfind, hpromo⟩ := hview s₁ h₁
  obtain rfl := updatePromoRelease_ok hfind hq
  rw [releaseWrites_congr hpromo ht]
  obtain ⟨ha, hQ⟩ := h s₁ h₁
  refine ⟨fun l hl => ?_, hQ⟩
  simp only [Effect.wanted, List.nil_append] at hl
  obtain ⟨r, m⟩ := l
  obtain ⟨rfl, w, hw, hr⟩ := mem_writeLocks.mp hl
  obtain ⟨p, rfl⟩ := mem_releaseWrites hw
  obtain rfl : Row.promoCode p.id = r := by simpa [Write.target] using hr
  exact ha p.id _ List.mem_cons_self

/-- The release a session has made still is the one for the promo codes: it has locked
the row it has written. -/
theorem released_later {t : Transaction} {q : Shared signature} (hq : q ∈ x.snapshots)
    (ht : q.db.transactions.find? t.id = some t) (hl : (payments unicode).Later held q s)
    (hheld : ∀ w ∈ releaseWrites q.db t, ∀ r, w.target = some r →
      (r, LockMode.noKeyUpdate) ∈ held) :
    Released x s t (releaseWrites q.db t) :=
  ⟨q, hq, ht, rfl, fun p hp => later_promoCode hl (hheld _ hp _ rfl)⟩

/-- The locks of writes are among those of the statement. -/
theorem mem_held_executed {β : Type} {eff : Effect Write Row β} {w : Write} (hw : w ∈ eff.writes)
    {r : Row} (hr : w.target = some r) :
    (r, LockMode.noKeyUpdate) ∈ (x.executed s eff).held :=
  List.mem_append_right _ (List.mem_append_right _ (mem_writeLocks.mpr ⟨rfl, w, hw, hr⟩))

/-- The lock of a webhook's first statement. -/
def found (id : String) : List (Row × LockMode) := [(.transaction id, .update)]

/-- What a session has once it has locked transaction `t` under `id`: the row as it was,
the locks and the writes so far. -/
structure Holding (id : String) (t : Transaction) (locks : List (Row × LockMode))
    (ws : List Write) (x : Txn signature) (s : Shared signature) : Prop where
  inv : Inv s
  row : s.db.transactions.find? id = some t
  lock : (.transaction id, .update) ∈ locks
  held : x.held = locks
  pending : x.pending = ws
  calls : x.calls = []

namespace Holding

variable {id : String} {t : Transaction} {locks : List (Row × LockMode)} {ws : List Write}

theorem id_eq (h : Holding id t locks ws x s) : t.id = id := Table.key_of_find? h.row

theorem mem_held (h : Holding id t locks ws x s) {l : Row × LockMode} (hl : l ∈ locks) :
    l ∈ x.held := h.held ▸ hl

theorem later (h : Holding id t locks ws x s) (hl : (payments unicode).Later x.held s s') :
    Holding id t locks ws x s' :=
  ⟨hl.inv, (later_transaction hl (h.held ▸ h.lock)).trans h.row, h.lock, h.held, h.pending,
    h.calls⟩

theorem executed (h : Holding id t locks ws x s) {β : Type} {eff : Effect Write Row β} {v : β}
    {ws' : List Write} {ls : List (Row × LockMode)}
    (he : eff = { value := v, writes := ws', locks := ls }) :
    Holding id t (locks ++ (ls ++ writeLocks Database ws')) (ws ++ ws') (x.executed s eff) s := by
  subst he
  exact ⟨h.inv, h.row, List.mem_append_left _ h.lock, by simp [Txn.executed, h.held],
    by simp [Txn.executed, h.pending], h.calls⟩

theorem given (h : Holding id t locks ws x s) (ident : String) :
    Holding id t locks ws (x.given ident) s :=
  ⟨h.inv, h.row, h.lock, h.held, h.pending, h.calls⟩

/-- Locks on the transaction itself are covered. -/
theorem asks (h : Holding id t locks ws x s) {wanted : List (Row × LockMode)}
    (hw : ∀ l ∈ wanted, l.1 = .transaction id) : Asks j x wanted s :=
  fun l hl => .inl ⟨.update, by rw [hw l hl, h.held]; exact h.lock, rfl⟩

/-- For a new row that refers to the transaction, the session may have to wait. -/
theorem asks_insert (h : Holding id t locks ws x s) {r : Row} (hr : Queues x.held r s j) :
    Asks j x [(.transaction id, .keyShare), (r, .noKeyUpdate)] s := by
  intro l hl
  rcases List.mem_pair.mp hl with rfl | rfl
  · exact .inl ⟨.update, h.held ▸ h.lock, rfl⟩
  · exact .inr (.inr hr)

end Holding

end MoneyWay
