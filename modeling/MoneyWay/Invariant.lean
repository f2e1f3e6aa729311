import Mathlib.Data.List.Nodup
import MoneyWay.Library.ReadCommitted.Contract
import MoneyWay.System

/-!
# What every committed state satisfies

The laws that hold in any run, whether the worker's statements commit together or
one by one: which moves of a transaction's status there are, what never changes once
a row is there, who a transfer belongs to, and that BingX only ever sees requests for
stored transfers.

A list of writes is `Lawful` for a database when each of them is; lawful writes keep
`Sound` and make a database that `Evolves` from the one before.
-/

set_option autoImplicit false

namespace MoneyWay

open Keyed ReadCommitted

namespace TransactionStatus

/-- The moves of a transaction's status. -/
inductive Move : TransactionStatus → TransactionStatus → Prop
  | pay : Move .pending .paid
  | reject : Move .pending .failed
  | complete : Move .paid .completed
  | escalate : Move .paid .error
  | fail : Move .paid .failed
  | disputePaid : Move .paid .chargeback
  | disputeCompleted : Move .completed .chargeback
  | disputeError : Move .error .chargeback

/-- A status a transaction never leaves. -/
def Absorbing (s : TransactionStatus) : Prop := s = .failed ∨ s = .chargeback

theorem Move.not_absorbing {s s' : TransactionStatus} (h : Move s s') : ¬ s.Absorbing := by
  rintro (rfl | rfl) <;> cases h

theorem Move.ne_pending {s s' : TransactionStatus} (h : Move s s') : s' ≠ .pending := by
  rintro rfl
  cases h

end TransactionStatus

namespace Transaction

/-- What is fixed when a deposit is created. -/
structure SameQuote (t t' : Transaction) : Prop where
  id : t'.id = t.id
  userId : t'.userId = t.userId
  promoCodeId : t'.promoCodeId = t.promoCodeId
  amountRub : t'.amountRub = t.amountRub
  amountUsdt : t'.amountUsdt = t.amountUsdt
  commission : t'.commission = t.commission
  bingxUid : t'.bingxUid = t.bingxUid
  payerIp : t'.payerIp = t.payerIp
  deviceFingerprint : t'.deviceFingerprint = t.deviceFingerprint
  createdAt : t'.createdAt = t.createdAt

theorem SameQuote.refl (t : Transaction) : t.SameQuote t :=
  ⟨rfl, rfl, rfl, rfl, rfl, rfl, rfl, rfl, rfl, rfl⟩

theorem SameQuote.trans {t u v : Transaction} (h : t.SameQuote u) (h' : u.SameQuote v) :
    t.SameQuote v :=
  ⟨h'.id.trans h.id, h'.userId.trans h.userId, h'.promoCodeId.trans h.promoCodeId,
    h'.amountRub.trans h.amountRub, h'.amountUsdt.trans h.amountUsdt,
    h'.commission.trans h.commission, h'.bingxUid.trans h.bingxUid, h'.payerIp.trans h.payerIp,
    h'.deviceFingerprint.trans h.deviceFingerprint, h'.createdAt.trans h.createdAt⟩

/-- What one commit may do to a transaction. -/
structure Moves (t t' : Transaction) : Prop where
  quote : t.SameQuote t'
  status : t'.status = t.status ∨ TransactionStatus.Move t.status t'.status

theorem Moves.refl (t : Transaction) : t.Moves t := ⟨.refl t, .inl rfl⟩

theorem Moves.ne_pending {t t' : Transaction} (h : t.Moves t') (ht : t.status ≠ .pending) :
    t'.status ≠ .pending := by
  rcases h.status with he | hm
  · rwa [he]
  · exact hm.ne_pending

end Transaction

namespace BingxTransfer

/-- What is fixed when a transfer is scheduled. -/
structure SamePayout (x x' : BingxTransfer) : Prop where
  id : x'.id = x.id
  transactionId : x'.transactionId = x.transactionId
  idempotencyKey : x'.idempotencyKey = x.idempotencyKey
  recipientUid : x'.recipientUid = x.recipientUid
  amountUsdt : x'.amountUsdt = x.amountUsdt
  scheduledAt : x'.scheduledAt = x.scheduledAt
  createdAt : x'.createdAt = x.createdAt

theorem SamePayout.refl (x : BingxTransfer) : x.SamePayout x :=
  ⟨rfl, rfl, rfl, rfl, rfl, rfl, rfl⟩

theorem SamePayout.trans {x y z : BingxTransfer} (h : x.SamePayout y) (h' : y.SamePayout z) :
    x.SamePayout z :=
  ⟨h'.id.trans h.id, h'.transactionId.trans h.transactionId,
    h'.idempotencyKey.trans h.idempotencyKey, h'.recipientUid.trans h.recipientUid,
    h'.amountUsdt.trans h.amountUsdt, h'.scheduledAt.trans h.scheduledAt,
    h'.createdAt.trans h.createdAt⟩

/-- The transfer pays what the transaction has quoted. -/
structure Pays (x : BingxTransfer) (t : Transaction) : Prop where
  recipientUid : x.recipientUid = t.bingxUid
  amountUsdt : x.amountUsdt = t.amountUsdt
  idempotencyKey : x.idempotencyKey = MoneyWay.idempotencyKey t.id

theorem Pays.congr {x x' : BingxTransfer} {t t' : Transaction} (h : x.Pays t)
    (hx : x.SamePayout x') (ht : t.SameQuote t') : x'.Pays t' :=
  ⟨by rw [hx.recipientUid, h.recipientUid, ht.bingxUid],
    by rw [hx.amountUsdt, h.amountUsdt, ht.amountUsdt],
    by rw [hx.idempotencyKey, h.idempotencyKey, ht.id]⟩

/-- The request a worker sends for the transfer. -/
def request (x : BingxTransfer) : TransferRequest :=
  ⟨x.recipientUid, x.amountUsdt, x.idempotencyKey⟩

theorem SamePayout.request {x x' : BingxTransfer} (h : x.SamePayout x') :
    x'.request = x.request := by
  simp only [BingxTransfer.request, h.recipientUid, h.amountUsdt, h.idempotencyKey]

end BingxTransfer

/-- Different transactions have different keys. -/
theorem idempotencyKey_injective {a b : String} (h : idempotencyKey a = idempotencyKey b) :
    a = b := by
  have hl := congrArg String.toList h
  simp only [idempotencyKey, String.toList_append] at hl
  exact String.toList_inj.mp (List.append_cancel_left hl)

/-- The tables fit together. -/
structure Sound (d : Database) : Prop where
  owner : ∀ x ∈ d.bingxTransfers.rows, ∃ t, d.transactions.find? x.transactionId = some t ∧
    t.status ≠ .pending ∧ x.Pays t
  single : ∀ x ∈ d.bingxTransfers.rows, ∀ y ∈ d.bingxTransfers.rows,
    x.transactionId = y.transactionId → x = y
  kyc : ∀ k ∈ d.kycRecords.rows, ∃ t, d.transactions.find? k.transactionId = some t ∧
    t.status ≠ .pending ∧ k.amountRub = t.amountRub
  user : ∀ t ∈ d.transactions.rows, ∃ u, d.users.find? t.userId = some u

namespace Sound

variable {d : Database} {id : String} {t : Transaction}

theorem idempotencyKey_eq (hd : Sound d) {y : BingxTransfer} (hy : y ∈ d.bingxTransfers.rows) :
    y.idempotencyKey = idempotencyKey y.transactionId := by
  obtain ⟨t, ht, -, hpays⟩ := hd.owner y hy
  rw [hpays.idempotencyKey, Table.key_of_find? ht]

/-- A key belongs to one transfer. -/
theorem eq_of_idempotencyKey (hd : Sound d) {y z : BingxTransfer}
    (hy : y ∈ d.bingxTransfers.rows) (hz : z ∈ d.bingxTransfers.rows)
    (h : y.idempotencyKey = z.idempotencyKey) : y = z := by
  rw [hd.idempotencyKey_eq hy, hd.idempotencyKey_eq hz] at h
  exact hd.single y hy z hz (idempotencyKey_injective h)

/-- A pending transaction has neither a KYC record nor a transfer. -/
theorem bare (hd : Sound d) (ht : d.transactions.find? id = some t) (hp : t.status = .pending) :
    d.kycRecords.find? id = none ∧ ∀ y ∈ d.bingxTransfers.rows, y.transactionId ≠ id := by
  constructor
  · by_contra hk
    obtain ⟨k, hk⟩ := Option.ne_none_iff_exists'.mp hk
    obtain ⟨t', ht', hne, -⟩ := hd.kyc k (Table.mem_of_find? hk)
    rw [Table.key_of_find? hk, ht] at ht'
    exact hne (Option.some.inj ht' ▸ hp)
  · intro y hy he
    obtain ⟨t', ht', hne, -⟩ := hd.owner y hy
    rw [he, ht] at ht'
    exact hne (Option.some.inj ht' ▸ hp)

theorem bare_idempotencyKey (hd : Sound d) (ht : d.transactions.find? id = some t)
    (hp : t.status = .pending) :
    ∀ y ∈ d.bingxTransfers.rows, y.idempotencyKey ≠ idempotencyKey id := by
  intro y hy he
  rw [hd.idempotencyKey_eq hy] at he
  exact (hd.bare ht hp).2 y hy (idempotencyKey_injective he)

end Sound

/-- What one commit may do to the database. -/
structure Evolves (d d' : Database) : Prop where
  users : d'.users = d.users
  transaction : ∀ id t, d.transactions.find? id = some t →
    ∃ t', d'.transactions.find? id = some t' ∧ t.Moves t'
  fresh : ∀ id t', d.transactions.find? id = none → d'.transactions.find? id = some t' →
    t'.status = .pending
  transfer : ∀ id x, d.bingxTransfers.find? id = some x →
    ∃ x', d'.bingxTransfers.find? id = some x' ∧ x.SamePayout x'

theorem Evolves.refl (d : Database) : Evolves d d :=
  ⟨rfl, fun _ t h => ⟨t, h, .refl t⟩, fun _ _ h h' => by simp [h] at h',
    fun _ x h => ⟨x, h, .refl x⟩⟩

/-- A transfer is written for one that is there, or for a transaction that gets its
first transfer along with leaving pending. -/
def LawfulTransfer (d : Database) (ws : List Write) (x' : BingxTransfer) : Prop :=
  (∃ x, d.bingxTransfers.find? x'.id = some x ∧ x.SamePayout x') ∨
    d.bingxTransfers.find? x'.id = none ∧
      (∀ y ∈ d.bingxTransfers.rows, y.transactionId ≠ x'.transactionId) ∧
      (∀ y, .bingxTransfer y ∈ ws → y = x') ∧
      ∃ t', .transaction t' ∈ ws ∧ t'.id = x'.transactionId ∧ t'.status ≠ .pending ∧ x'.Pays t'

/-- Writes that respect the laws. -/
structure Lawful (d : Database) (ws : List Write) : Prop where
  transaction : ∀ t', .transaction t' ∈ ws →
    (∃ t, d.transactions.find? t'.id = some t ∧ t.Moves t') ∨
      d.transactions.find? t'.id = none ∧ t'.status = .pending ∧
        ∃ u, d.users.find? t'.userId = some u
  one : ∀ t' t'', .transaction t' ∈ ws → .transaction t'' ∈ ws → t' = t''
  transfer : ∀ x', .bingxTransfer x' ∈ ws → LawfulTransfer d ws x'
  kyc : ∀ k', .kycRecord k' ∈ ws →
    ∃ t', .transaction t' ∈ ws ∧ t'.id = k'.transactionId ∧ t'.status ≠ .pending ∧
      k'.amountRub = t'.amountRub

namespace Lawful

variable {d : Database} {ws : List Write}

/-- A transaction that was there has moved at most once. -/
theorem moves (h : Lawful d ws) {id : String} {t : Transaction}
    (ht : d.transactions.find? id = some t) :
    ∃ t', (replay ws d).transactions.find? id = some t' ∧ t.Moves t' := by
  obtain ⟨t', ht'⟩ := Database.exists_transaction_replay ws ht
  refine ⟨t', ht', ?_⟩
  rcases Database.transaction_replay ht' with ⟨hw, rfl⟩ | ⟨hd, -⟩
  · rcases h.transaction t' hw with ⟨t₀, h₀, hm⟩ | ⟨hn, -⟩
    · obtain rfl := Option.some.inj (ht.symm.trans h₀)
      exact hm
    · simp [ht] at hn
  · obtain rfl := Option.some.inj (ht.symm.trans hd)
    exact .refl t

/-- A transaction that is written is what the table has afterwards. -/
theorem find_written (h : Lawful d ws) {t' : Transaction} (hw : .transaction t' ∈ ws) :
    (replay ws d).transactions.find? t'.id = some t' := by
  have hr : (Store.row (.transaction t'.id) (replay ws d)).isSome = true :=
    isSome_row_of_mem (D := Database) hw rfl fun _ _ ht =>
      Database.removes_eq_false ht nofun
  obtain ⟨t'', ht''⟩ : ∃ t'', (replay ws d).transactions.find? t'.id = some t'' := by
    simpa [Database.row, Option.isSome_iff_exists] using hr
  rcases Database.transaction_replay ht'' with ⟨hw', -⟩ | ⟨-, hn⟩
  · rw [ht'', h.one t'' t' hw' hw]
  · exact absurd rfl (hn t' hw)

theorem evolves (h : Lawful d ws) : Evolves d (replay ws d) := by
  refine ⟨Database.users_replay ws, fun id t ht => h.moves ht, fun id t' hn ht' => ?_,
    fun id x hx => ?_⟩
  · rcases Database.transaction_replay ht' with ⟨hw, rfl⟩ | ⟨hd, -⟩
    · rcases h.transaction t' hw with ⟨t, ht, -⟩ | ⟨-, hs, -⟩
      · simp [hn] at ht
      · exact hs
    · simp [hn] at hd
  · obtain ⟨x', hx'⟩ := Database.exists_transfer_replay ws hx
    refine ⟨x', hx', ?_⟩
    rcases Database.transfer_replay hx' with ⟨hw, rfl⟩ | ⟨hd, -⟩
    · rcases h.transfer x' hw with ⟨x₀, h₀, hs⟩ | ⟨hn, -⟩
      · obtain rfl := Option.some.inj (hx.symm.trans h₀)
        exact hs
      · simp [hx] at hn
    · obtain rfl := Option.some.inj (hx.symm.trans hd)
      exact .refl x

/-- A transfer after lawful writes continues one from before, or is the new one. -/
theorem transfer_cases (h : Lawful d ws) {x' : BingxTransfer}
    (hx' : x' ∈ (replay ws d).bingxTransfers.rows) :
    (∃ x ∈ d.bingxTransfers.rows, x.SamePayout x') ∨
      (∀ y ∈ d.bingxTransfers.rows, y.transactionId ≠ x'.transactionId) ∧
      (∀ y, .bingxTransfer y ∈ ws → y = x') ∧
      ∃ t', (replay ws d).transactions.find? x'.transactionId = some t' ∧
        t'.status ≠ .pending ∧ x'.Pays t' := by
  rcases Database.transfer_replay (Table.find?_of_mem hx') with ⟨hw, -⟩ | ⟨hd, -⟩
  · rcases h.transfer x' hw with ⟨x, hx, hs⟩ | ⟨-, hno, honly, t', ht', hid, hs, hp⟩
    · exact .inl ⟨x, Table.mem_of_find? hx, hs⟩
    · exact .inr ⟨hno, honly, t', hid ▸ h.find_written ht', hs, hp⟩
  · exact .inl ⟨x', Table.mem_of_find? hd, .refl x'⟩

theorem sound (h : Lawful d ws) (hd : Sound d) : Sound (replay ws d) := by
  refine ⟨fun x' hx' => ?_, fun x' hx' y' hy' he => ?_, fun k' hk' => ?_, fun t' ht' => ?_⟩
  · rcases h.transfer_cases hx' with ⟨x, hx, hs⟩ | ⟨-, -, hnew⟩
    · obtain ⟨t, ht, hne, hp⟩ := hd.owner x hx
      obtain ⟨t', ht', hm⟩ := h.moves ht
      exact ⟨t', hs.transactionId ▸ ht', hm.ne_pending hne, hp.congr hs hm.quote⟩
    · exact hnew
  · rcases h.transfer_cases hx' with ⟨x, hx, hs⟩ | ⟨hno, honly, -⟩ <;>
      rcases h.transfer_cases hy' with ⟨y, hy, hs'⟩ | ⟨hno', honly', -⟩
    · -- both continue the one transfer the transaction had
      have hxy : x = y :=
        hd.single x hx y hy (by rw [← hs.transactionId, ← hs'.transactionId, he])
      subst hxy
      exact Table.eq_of_key hx' hy' (by rw [hs.id, hs'.id])
    · exact absurd (by rw [← hs.transactionId, he]) (hno' x hx)
    · exact absurd (by rw [← hs'.transactionId, he]) (hno y hy)
    · rcases Database.transfer_replay (Table.find?_of_mem hy') with ⟨hw, -⟩ | ⟨hold, -⟩
      · exact (honly y' hw).symm
      · exact absurd rfl (hno' y' (Table.mem_of_find? hold))
  · rcases Database.kycRecord_replay (Table.find?_of_mem hk') with ⟨hw, -⟩ | ⟨hold, -⟩
    · obtain ⟨t', ht', hid, hs, ha⟩ := h.kyc k' hw
      exact ⟨t', hid ▸ h.find_written ht', hs, ha⟩
    · obtain ⟨t, ht, hne, ha⟩ := hd.kyc k' (Table.mem_of_find? hold)
      obtain ⟨t', ht', hm⟩ := h.moves ht
      exact ⟨t', ht', hm.ne_pending hne, by rw [ha, hm.quote.amountRub]⟩
  · rw [Database.users_replay]
    rcases Database.transaction_replay (Table.find?_of_mem ht') with ⟨hw, -⟩ | ⟨hold, -⟩
    · rcases h.transaction t' hw with ⟨t, ht, hm⟩ | ⟨-, -, hu⟩
      · rw [hm.quote.userId]
        exact hd.user t (Table.mem_of_find? ht)
      · exact hu
    · exact hd.user t' (Table.mem_of_find? hold)

end Lawful

/-- BingX has only seen requests for stored transfers, and has accepted no key twice. -/
structure Ledger (s : Shared signature) : Prop where
  wire : ∀ q ∈ s.ext.wire, ∃ x ∈ s.db.bingxTransfers.rows, x.request = q
  accepted : ∀ q ∈ s.ext.accepted, ∃ x ∈ s.db.bingxTransfers.rows, x.request = q
  once : (s.ext.accepted.map (·.idempotencyKey)).Nodup

/-- The invariant of the shared state. A transfer is only claimed once its hold is over. -/
structure Inv (s : Shared signature) : Prop where
  sound : Sound s.db
  ledger : Ledger s
  due : ∀ x ∈ s.db.bingxTransfers.rows, x.status = .processing → x.scheduledAt ≤ s.ext.now

/-- No transfer is set to processing before its time. -/
def Timely (now : Timestamp) (ws : List Write) : Prop :=
  ∀ x, .bingxTransfer x ∈ ws → x.status = .processing → x.scheduledAt ≤ now

/-- What a change of the shared state may do. -/
structure Guar (s s' : Shared signature) : Prop where
  db : Evolves s.db s'.db
  now : s.ext.now ≤ s'.ext.now
  accepted : s.ext.accepted <+: s'.ext.accepted

/-- Lawful writes keep the invariant. -/
theorem Lawful.inv {ws : List Write} {s : Shared signature} (h : Lawful s.db ws)
    (ht : Timely s.ext.now ws) (hs : Inv s) :
    Guar s ⟨replay ws s.db, s.ext⟩ ∧ Inv ⟨replay ws s.db, s.ext⟩ := by
  have keep : ∀ q, (∃ x ∈ s.db.bingxTransfers.rows, x.request = q) →
      ∃ x ∈ (replay ws s.db).bingxTransfers.rows, x.request = q := by
    rintro q ⟨x, hx, rfl⟩
    obtain ⟨x', hx', hsame⟩ := h.evolves.transfer x.id x (Table.find?_of_mem hx)
    exact ⟨x', Table.mem_of_find? hx', hsame.request⟩
  refine ⟨⟨h.evolves, le_refl _, List.prefix_refl _⟩, h.sound hs.sound,
    ⟨fun q hq => keep q (hs.ledger.wire q hq), fun q hq => keep q (hs.ledger.accepted q hq),
      hs.ledger.once⟩, fun x hx hst => ?_⟩
  rcases Database.transfer_replay (Table.find?_of_mem hx) with ⟨hw, -⟩ | ⟨hold, -⟩
  · exact ht x hw hst
  · exact hs.due x (Table.mem_of_find? hold) hst

/-- Sending a request for a stored transfer keeps the invariant. -/
theorem inv_send {s : Shared signature} (hs : Inv s) {q : TransferRequest}
    (hq : ∃ x ∈ s.db.bingxTransfers.rows, x.request = q) :
    Guar s ⟨s.db, s.ext.send q⟩ ∧ Inv ⟨s.db, s.ext.send q⟩ := by
  refine ⟨⟨.refl _, le_refl _, List.prefix_refl _⟩, hs.sound, ⟨fun r hr => ?_,
    hs.ledger.accepted, hs.ledger.once⟩, hs.due⟩
  rcases List.mem_append.mp hr with hr | hr
  · exact hs.ledger.wire r hr
  · obtain rfl := List.mem_singleton.mp hr
    exact hq

/-- What happens outside keeps the invariant. -/
theorem inv_event {s : Shared signature} (hs : Inv s) {e : BingxEvent} {x : Bingx}
    (he : s.ext.event e = some x) : Guar s ⟨s.db, x⟩ ∧ Inv ⟨s.db, x⟩ := by
  cases e with
  | accept q =>
    simp only [Bingx.event] at he
    split at he
    · next h =>
      obtain ⟨hq, hnew⟩ := h
      cases he
      refine ⟨⟨.refl _, le_refl _, List.prefix_append _ _⟩, hs.sound,
        ⟨fun r hr => hs.ledger.wire r (List.mem_of_mem_erase hr), fun r hr => ?_, ?_⟩, hs.due⟩
      · rcases List.mem_append.mp hr with hr | hr
        · exact hs.ledger.accepted r hr
        · obtain rfl := List.mem_singleton.mp hr
          exact hs.ledger.wire r hq
      · rw [List.map_append, List.nodup_append]
        refine ⟨hs.ledger.once, List.nodup_singleton _, fun a ha b hb => ?_⟩
        obtain ⟨r, hr, rfl⟩ := List.mem_map.mp ha
        obtain rfl : b = q.idempotencyKey := by simpa using hb
        exact hnew r hr
    · cases he
  | drop q =>
    simp only [Bingx.event] at he
    split at he
    · cases he
      exact ⟨⟨.refl _, le_refl _, List.prefix_refl _⟩, hs.sound,
        ⟨fun r hr => hs.ledger.wire r (List.mem_of_mem_erase hr), hs.ledger.accepted,
          hs.ledger.once⟩, hs.due⟩
    · cases he
  | tick delta =>
    cases he
    have hnow := Int.le_add_of_nonneg_right (a := s.ext.now) (Int.natCast_nonneg delta)
    exact ⟨⟨.refl _, hnow, List.prefix_refl _⟩, hs.sound, ⟨hs.ledger.wire, hs.ledger.accepted,
      hs.ledger.once⟩, fun x hx hst => (hs.due x hx hst).trans hnow⟩

/-- What persists over any number of changes. -/
structure Persists (d d' : Database) : Prop where
  users : d'.users = d.users
  transaction : ∀ id t, d.transactions.find? id = some t →
    ∃ t', d'.transactions.find? id = some t' ∧ t.SameQuote t' ∧
      Relation.ReflTransGen TransactionStatus.Move t.status t'.status
  transfer : ∀ id x, d.bingxTransfers.find? id = some x →
    ∃ x', d'.bingxTransfers.find? id = some x' ∧ x.SamePayout x'

theorem Persists.refl (d : Database) : Persists d d :=
  ⟨rfl, fun _ t h => ⟨t, h, .refl t, .refl⟩, fun _ x h => ⟨x, h, .refl x⟩⟩

theorem Persists.trans {d e f : Database} (h : Persists d e) (h' : Persists e f) :
    Persists d f := by
  refine ⟨h'.users.trans h.users, fun id t ht => ?_, fun id x hx => ?_⟩
  · obtain ⟨u, hu, hq, hm⟩ := h.transaction id t ht
    obtain ⟨v, hv, hq', hm'⟩ := h'.transaction id u hu
    exact ⟨v, hv, hq.trans hq', hm.trans hm'⟩
  · obtain ⟨y, hy, hs⟩ := h.transfer id x hx
    obtain ⟨z, hz, hs'⟩ := h'.transfer id y hy
    exact ⟨z, hz, hs.trans hs'⟩

theorem Evolves.persists {d d' : Database} (h : Evolves d d') : Persists d d' := by
  refine ⟨h.users, fun id t ht => ?_, h.transfer⟩
  obtain ⟨t', ht', hm⟩ := h.transaction id t ht
  refine ⟨t', ht', hm.quote, ?_⟩
  rcases hm.status with he | hs
  · rw [he]
  · exact .single hs

theorem TransactionStatus.Absorbing.eq_of_moves {a b : TransactionStatus} (ha : a.Absorbing)
    (h : Relation.ReflTransGen Move a b) : b = a := by
  induction h with
  | refl => rfl
  | tail _ hlast ih => exact absurd (ih ▸ ha) hlast.not_absorbing

/-- No transaction becomes pending again. -/
theorem TransactionStatus.ne_pending_of_moves {a b : TransactionStatus} (ha : a ≠ .pending)
    (h : Relation.ReflTransGen Move a b) : b ≠ .pending := by
  induction h with
  | refl => exact ha
  | tail _ hlast _ => exact hlast.ne_pending

/-- A status that is never left stays over any number of changes. -/
theorem Persists.absorbing {d d' : Database} (h : Persists d d') {id : String} {t : Transaction}
    (ht : d.transactions.find? id = some t) (ha : t.status.Absorbing) :
    ∃ t', d'.transactions.find? id = some t' ∧ t'.status = t.status := by
  obtain ⟨t', ht', -, hmoves⟩ := h.transaction id t ht
  exact ⟨t', ht', ha.eq_of_moves hmoves⟩

end MoneyWay
