import MoneyWay.Sessions.Rules

/-!
# Sessions of the chargeback webhook

The chargeback webhook holds the transaction's row from its first statement on. The
transfers it cancels are those that are unsent when its `UPDATE` runs; they are locked
from then on.
-/

set_option autoImplicit false

namespace MoneyWay

open Keyed ReadCommitted Python Prog Sql

section Chargeback

variable {unicode : Unicode} {p : SBPChargebackWebhook} {x : Txn signature}
  {s : Shared signature} {d : Dossier} {locks : List (Row × LockMode)} {ws : List Write}

/-- The locks of a chargeback: those of its transaction and of rows below a level. -/
structure Reaches (p : SBPChargebackWebhook) (n : ℕ) (locks : List (Row × LockMode)) : Prop where
  level : ∀ l ∈ locks, level l.1 < n
  ids : ∀ l ∈ locks, ∀ id, l.1 = .transaction id → id = p.transactionId

theorem Reaches.append {m n : ℕ} {ls : List (Row × LockMode)} (h : Reaches p m locks)
    (hmn : m ≤ n) (hls : ∀ l ∈ ls, MoneyWay.level l.1 < n ∧ ∀ id, l.1 ≠ .transaction id) :
    Reaches p n (locks ++ ls) := by
  refine ⟨fun l hl => ?_, fun l hl id he => ?_⟩ <;> rcases List.mem_append.mp hl with hl | hl
  · exact (h.level l hl).trans_le hmn
  · exact (hls l hl).1
  · exact h.ids l hl id he
  · exact absurd he ((hls l hl).2 id)

theorem chargeback_queues {t : Transaction} {r : Row}
    (h : Holding p.transactionId t locks ws x s) (hr : Reaches p (level r) locks)
    (hown : ∀ y ∈ s.db.bingxTransfers.rows, r = .bingxTransfer y.id →
      y.transactionId = p.transactionId) :
    Queues x.held r s (.sbpChargebackWebhook p) := by
  rw [Queues, h.held]
  exact ⟨hr.level, t, h.row, fun l hl id he => (hr.ids l hl id he).trans h.id_eq.symm,
    fun y hy he => (hown y hy he).trans h.id_eq.symm⟩

/-- The cancelled transfers and what their writes lock. -/
def cancelWrites (d : Database) (transactionId : String) (now : Timestamp) : List Write :=
  (unsent d transactionId).map fun y => .bingxTransfer (y.cancel now)

theorem mem_cancelWrites {d : Database} {transactionId : String} {now : Timestamp} {w : Write}
    (h : w ∈ cancelWrites d transactionId now) : ∃ y, w = .bingxTransfer y := by
  obtain ⟨y, -, rfl⟩ := List.mem_map.mp h
  exact ⟨_, rfl⟩

theorem mem_cancelLocks {d : Database} {transactionId : String} {now : Timestamp}
    {l : Row × LockMode} :
    l ∈ writeLocks Database (cancelWrites d transactionId now) ↔
      ∃ y ∈ unsent d transactionId, l = (.bingxTransfer y.id, .noKeyUpdate) := by
  obtain ⟨r, m⟩ := l
  simp only [mem_writeLocks, cancelWrites, List.mem_map, Prod.mk.injEq]
  constructor
  · rintro ⟨rfl, w, ⟨y, hy, rfl⟩, hr⟩
    exact ⟨y, hy, by simpa [BingxTransfer.cancel] using hr.symm, rfl⟩
  · rintro ⟨y, hy, rfl, rfl⟩
    exact ⟨rfl, _, ⟨y, hy, rfl⟩, by simp [BingxTransfer.cancel]⟩

theorem mem_unsent {d : Database} {transactionId : String} {y : BingxTransfer} :
    y ∈ unsent d transactionId ↔ y ∈ d.bingxTransfers.rows ∧ y.transactionId = transactionId ∧
      (y.status = .pending ∨ y.status = .processing) := by
  simp [unsent, BingxTransfer.unsentOf]

/-- What a chargeback has done once it has released the promo code: `q` is the state in
which it has cancelled transfers and `q'` the one in which it has released the code. -/
structure Charging (p : SBPChargebackWebhook) (d : Dossier) (now : Timestamp)
    (q q' : Shared signature) (locks : List (Row × LockMode)) (entries : List Write)
    (x : Txn signature) (s : Shared signature) : Prop where
  hold : Holding p.transactionId d.transaction locks
    (.transaction (d.transaction.dispute now) :: cancelWrites q.db p.transactionId now ++
      releaseWrites q'.db d.transaction ++ entries) x s
  read : x.snapshots[2]? = some q
  row : q.db.transactions.find? p.transactionId = some d.transaction
  read' : q' ∈ x.snapshots
  row' : q'.db.transactions.find? d.transaction.id = some d.transaction
  cancelled : ∀ y ∈ unsent q.db p.transactionId,
    s.db.bingxTransfers.find? y.id = some y ∧ (.bingxTransfer y.id, .noKeyUpdate) ∈ locks
  released : ∀ c, .promoCode c ∈ releaseWrites q'.db d.transaction →
    s.db.promoCodes.find? c.id = q'.db.promoCodes.find? c.id ∧
      (.promoCode c.id, .noKeyUpdate) ∈ locks

namespace Charging

variable {now : Timestamp} {q q' s' : Shared signature} {entries : List Write}

theorem given (h : Charging p d now q q' locks entries x s) (ident : String) :
    Charging p d now q q' locks entries (x.given ident) s :=
  ⟨h.hold.given ident, h.read, h.row, h.read', h.row', h.cancelled, h.released⟩

theorem later (h : Charging p d now q q' locks entries x s)
    (hl : (payments unicode).Later x.held s s') : Charging p d now q q' locks entries x s' := by
  refine ⟨h.hold.later hl, h.read, h.row, h.read', h.row', fun y hy => ?_, fun c hc => ?_⟩
  · obtain ⟨hf, hm⟩ := h.cancelled y hy
    exact ⟨(later_transfer hl (h.hold.mem_held hm)).trans hf, hm⟩
  · obtain ⟨hf, hm⟩ := h.released c hc
    exact ⟨(later_promoCode hl (h.hold.mem_held hm)).trans hf, hm⟩

theorem executed (h : Charging p d now q q' locks entries x s) {β : Type}
    {eff : Effect Write Row β} {v : β} {ws : List Write} {ls : List (Row × LockMode)}
    (he : eff = { value := v, writes := ws, locks := ls }) :
    Charging p d now q q' (locks ++ (ls ++ writeLocks Database ws)) (entries ++ ws)
      (x.executed s eff) s := by
  refine ⟨?_, Txn.getElem?_snapshots_executed h.read, h.row, List.mem_append_left _ h.read',
    h.row', fun y hy => ?_, fun c hc => ?_⟩
  · simpa only [List.append_assoc] using h.hold.executed he
  · obtain ⟨hf, hm⟩ := h.cancelled y hy
    exact ⟨hf, List.mem_append_left _ hm⟩
  · obtain ⟨hf, hm⟩ := h.released c hc
    exact ⟨hf, List.mem_append_left _ hm⟩

end Charging

/-- The lock on a blacklist entry, if there is one. -/
def blacklistLocks (type : BlacklistType) (value : String) : List (Row × LockMode) :=
  if value = "" then [] else [(.blacklist (type, value), .noKeyUpdate)]

theorem target_of_mem_blacklistWrites {d : Database} {type : BlacklistType}
    {value reason id : String} {now : Timestamp} {w : Write}
    (h : w ∈ blacklistWrites d type value reason id now) :
    w.target = some (.blacklist (type, value)) := by
  unfold blacklistWrites at h
  split at h
  · cases h
  · rw [List.mem_singleton.mp h, Write.target, key_blacklisted]
    rfl

/-- An entry that is locked stays what it is. -/
theorem blacklistWrites_later {held : List (Row × LockMode)} {s s' : Shared signature}
    {type : BlacklistType} {value reason id : String} {now : Timestamp}
    (hl : (payments unicode).Later held s s') (hm : ∀ l ∈ blacklistLocks type value, l ∈ held) :
    blacklistWrites s'.db type value reason id now =
      blacklistWrites s.db type value reason id now := by
  unfold blacklistWrites
  split
  · rfl
  · next hv =>
    have hrow : s'.db.blacklist.find? (type, value) = s.db.blacklist.find? (type, value) :=
      later_blacklist (m := .noKeyUpdate) hl (hm _ (by simp [blacklistLocks, hv]))
    rw [blacklisted_congr hrow]

/-- One blacklist entry of a session that holds the transaction. -/
theorem wp_blacklistChargeback {now : Timestamp} {q q' : Shared signature}
    {entries : List Write} {type : BlacklistType} {value reason : String}
    {Q : Unit → Txn signature → Shared signature → Prop}
    (h : Charging p d now q q' locks entries x s)
    (hnew : ∀ w ∈ entries, w.target ≠ some (.blacklist (type, value)))
    (hask : ∀ s', Charging p d now q q' locks entries x s' →
      Queues x.held (.blacklist (type, value)) s' (.sbpChargebackWebhook p))
    (hnext : ∀ x' s' id now', (payments unicode).Later x.held s s' →
      Charging p d now q q' (locks ++ blacklistLocks type value)
        (entries ++ blacklistWrites s'.db type value reason id now') x' s' → Q () x' s') :
    (payments unicode).Wp (bank unicode) (.sbpChargebackWebhook p)
      (blacklistChargeback type value reason) Q x s := by
  unfold blacklistChargeback
  split
  · next hv =>
    exact hnext x s "" 0 (.refl h.hold.inv) (by simpa [blacklistLocks, blacklistWrites, hv] using h)
  · next hv =>
    refine wp_uuid fun id => wp_now fun s₁ now' h₁ => wp_exec fun s₂ h₂ blocked eff hq => ?_
    have hold := (h.later h₁).later h₂
    have he := upsertBlacklist_ok hq
    rw [Txn.given_pending] at he
    -- its own writes so far are not to this entry
    have hview : blacklisted (replay x.pending s₂.db) (chargebackEntry type value reason id now') =
        blacklisted s₂.db (chargebackEntry type value reason id now') := by
      unfold blacklisted
      rw [Database.blacklist_replay (k := (chargebackEntry type value reason id now').key)]
      intro w hw
      rw [hold.hold.pending] at hw
      simp only [List.cons_append, List.mem_cons, List.mem_append] at hw
      rcases hw with rfl | (hw | hw) | hw
      · simp
      · obtain ⟨y, rfl⟩ := mem_cancelWrites hw
        simp
      · obtain ⟨c, rfl⟩ := mem_releaseWrites hw
        simp
      · exact hnew w hw
    rw [hview] at he
    have hkey := key_blacklisted s₂.db (chargebackEntry type value reason id now')
    have hlock : writeLocks Database
        [.blacklist (blacklisted s₂.db (chargebackEntry type value reason id now'))] =
          [(.blacklist (type, value), .noKeyUpdate)] := by
      have htarget : Store.target (D := Database) (.blacklist
          (blacklisted s₂.db (chargebackEntry type value reason id now'))) =
            some (.blacklist (type, value)) := congrArg (fun k => some (Row.blacklist k)) hkey
      rw [writeLocks_cons, htarget]
      rfl
    refine ⟨?_, hnext _ s₂ id now' (h₁.trans h₂ fun _ hm => hm) ?_⟩
    · have hask := Asks.queue (n := .noKeyUpdate) (hask s₂ hold)
      rw [← hlock] at hask
      rw [he]
      exact hask
    · have hold := (hold.given id).executed he
      rw [hlock] at hold
      simpa [blacklistLocks, blacklistWrites, hv] using hold

theorem charging_queues {now : Timestamp} {q q' : Shared signature} {entries : List Write}
    {r : Row} (h : Charging p d now q q' locks entries x s) (hr : Reaches p (level r) locks)
    (hrow : ∀ id, r ≠ .bingxTransfer id) :
    Queues x.held r s (.sbpChargebackWebhook p) :=
  chargeback_queues h.hold hr fun y _ he => absurd he (hrow y.id)

/-- The rest of a chargeback, once the promo code is released. -/
theorem chargeback_entries {now : Timestamp} {q q' : Shared signature} {u : User}
    (h : Charging p d now q q' locks [] x s) (hr : Reaches p 4 locks)
    (hst : d.transaction.status ∈ chargebackEligibleStatuses)
    (hu : s.db.users.find? d.transaction.userId = some u) (hemail : d.email = u.email) :
    (payments unicode).Wp (bank unicode) (.sbpChargebackWebhook p)
      (addChargebackBlacklist d p.reason >>= fun _ => do
        exec (insertFraudAlert (chargebackAlert d p.reason now))
        writeAuditLog .chargebackReceived (some d.transaction.userId) (some d.transaction.id)
          (chargebackDetails p (unsent q.db p.transactionId).length) none none none)
      (fun _ => (payments unicode).AtCommit (.sbpChargebackWebhook p) .accepted) x s := by
  have hid := h.hold.id_eq
  refine Contract.Wp.bind (Contract.Wp.bind (wp_blacklistChargeback h (by simp)
    (fun s' h' => charging_queues h' hr (by simp)) fun x₁ s₁ id now₁ hl₁ h₁ => ?_))
  have hr₁ : Reaches p 5 (locks ++ blacklistLocks .email d.email) := by
    refine hr.append (by omega) fun l hl => ?_
    unfold blacklistLocks at hl
    split at hl
    · cases hl
    · cases List.mem_singleton.mp hl
      simp [level]
  refine wp_blacklistChargeback h₁ ?_ (fun s' h' => charging_queues h' hr₁ (by simp))
    fun x₂ s₂ id' now₂ hl₂ h₂ => ?_
  · rw [List.nil_append]
    intro w hw ht
    rw [target_of_mem_blacklistWrites hw] at ht
    cases ht
  refine Contract.Wp.bind (wp_exec fun s₃ hl₃ blocked eff hq => ?_)
  have h₃ := h₂.later hl₃
  have hreason : storableText p.reason = true := by
    have hs := storable_of_insertFraudAlert hq
    simp only [chargebackAlert, chargebackDossier, storableDetails, List.all_cons] at hs
    exact (Bool.and_eq_true _ _ ▸ hs).1
  have he := insertFraudAlert_ok hq
  refine ⟨h₃.hold.asks (by simp [he, chargebackAlert, hid]), ?_⟩
  refine wp_writeAuditLog fun s₄ now₃ hl₄ => ?_
  have h₄ := (h₃.executed he).later hl₄
  refine ⟨h₄.hold.asks (by simp [hid]), fun s₅ hl₅ => ?_⟩
  have h₅ := (h₄.executed rfl).later hl₅
  have since₂ : (payments unicode).Later x₂.held s₂ s₅ :=
    hl₃.trans (hl₄.trans hl₅ fun _ hm => List.mem_append_left _ hm)
      fun _ hm => List.mem_append_left _ hm
  have since₁ : (payments unicode).Later x₁.held s₁ s₅ := by
    refine hl₂.trans since₂ fun l hl => ?_
    rw [h₂.hold.held, ← h₁.hold.held]
    exact List.mem_append_left _ hl
  have hpending := h₅.hold.pending
  rw [← blacklistWrites_later since₁ fun l hl => h₁.hold.mem_held (List.mem_append_right _ hl),
    ← blacklistWrites_later since₂ fun l hl => h₂.hold.mem_held (List.mem_append_right _ hl)]
    at hpending
  refine ⟨.charged (u := u) h₅.hold.row hst ?_ hemail h₅.read h₅.row
    (fun y hy => (h₅.cancelled y hy).1)
    ⟨q', h₅.read', h₅.row', rfl, fun c hc => (h₅.released c hc).1⟩ hreason
    (by simpa [chargebackWrites, cancelWrites] using hpending), h₅.hold.calls⟩
  rw [later_users since₁, later_users hl₁]
  exact hu

/-- The rest of a chargeback, once its transfers are cancelled. -/
theorem chargeback_release {now : Timestamp} {u : User}
    (h : Holding p.transactionId d.transaction locks
      (.transaction (d.transaction.dispute now) :: cancelWrites s.db p.transactionId now) x s)
    (hr : Reaches p 3 locks) (hread : x.snapshots[2]? = some s)
    (hlocks : ∀ y ∈ unsent s.db p.transactionId, (.bingxTransfer y.id, .noKeyUpdate) ∈ locks)
    (hst : d.transaction.status ∈ chargebackEligibleStatuses)
    (hu : s.db.users.find? d.transaction.userId = some u) (hemail : d.email = u.email) :
    (payments unicode).Wp (bank unicode) (.sbpChargebackWebhook p)
      (releasePromoCode d.transaction.id >>= fun _ =>
        addChargebackBlacklist d p.reason >>= fun _ => do
          exec (insertFraudAlert (chargebackAlert d p.reason now))
          writeAuditLog .chargebackReceived (some d.transaction.userId) (some d.transaction.id)
            (chargebackDetails p (unsent s.db p.transactionId).length) none none none)
      (fun _ => (payments unicode).AtCommit (.sbpChargebackWebhook p) .accepted) x s := by
  refine Contract.Wp.bind (wp_releasePromoCode (t := d.transaction)
    (u := d.transaction.dispute now) (fun s' hl => ?_) rfl fun s₁ h₁ => ?_)
  · have hnone (w : Write) (hw : w ∈ cancelWrites s.db p.transactionId now) :
        (∀ t, w ≠ .transaction t) ∧ ∀ c, w ≠ .promoCode c := by
      obtain ⟨y, rfl⟩ := mem_cancelWrites hw
      simp
    rw [h.pending, replay_cons, Database.transactions_replay fun t ht => (hnone _ ht).1 t rfl,
      Database.promoCodes_replay fun c hc => (hnone _ hc).2 c rfl]
    exact ⟨by simp [Transaction.dispute], rfl⟩
  have hold := h.later h₁
  refine ⟨fun c => .queue (chargeback_queues hold hr (by simp)), ?_⟩
  have he : ({ value := (), writes := releaseWrites s₁.db d.transaction } : Effect Write Row Unit) =
    { value := (), writes := releaseWrites s₁.db d.transaction, locks := [] } := rfl
  have hcharging : Charging p d now s s₁
      (locks ++ ([] ++ writeLocks Database (releaseWrites s₁.db d.transaction))) []
      (x.executed s₁ { value := (), writes := releaseWrites s₁.db d.transaction }) s₁ := by
    refine ⟨by simpa using hold.executed he, Txn.getElem?_snapshots_executed hread, h.row,
      by simp [Txn.executed], by rw [hold.id_eq, hold.row],
      fun y hy => ⟨?_, List.mem_append_left _ (hlocks y hy)⟩,
      fun c hc => ⟨rfl, List.mem_append_right _ (mem_writeLocks.mpr ⟨rfl, _, hc, rfl⟩)⟩⟩
    rw [later_transfer h₁ (h.mem_held (hlocks y hy))]
    exact Table.find?_of_mem (mem_unsent.mp hy).1
  refine chargeback_entries hcharging (hr.append (by omega) fun l hl => ?_) hst (u := u) ?_ hemail
  · obtain ⟨r, m⟩ := l
    obtain ⟨-, w, hw, htarget⟩ := mem_writeLocks.mp hl
    obtain ⟨c, rfl⟩ := mem_releaseWrites hw
    cases htarget
    simp [level]
  · rw [later_users h₁]
    exact hu

theorem chargeback_charged {u : User}
    (h : Holding p.transactionId d.transaction (found p.transactionId) [] x s)
    (hfirst : x.snapshots.length = 1) (hst : d.transaction.status ∈ chargebackEligibleStatuses)
    (hu : s.db.users.find? d.transaction.userId = some u) (hemail : d.email = u.email) :
    (payments unicode).Wp (bank unicode) (.sbpChargebackWebhook p) (recordChargeback p d)
      (fun _ => (payments unicode).AtCommit (.sbpChargebackWebhook p) .accepted) x s := by
  refine wp_now fun s₁ now h₁ => Contract.Wp.bind (wp_exec fun s₂ h₂ blocked eff hq => ?_)
  have hold := (h.later h₁).later h₂
  have hid := hold.id_eq
  rw [hold.pending] at hq
  have he : eff = { value := (), writes := [.transaction (d.transaction.dispute now)] } :=
    updateTransaction_ok hold.row hq
  refine ⟨hold.asks (by simp [he, Transaction.dispute, hid]), ?_⟩
  have hold := hold.executed he
  -- the transfers that are unsent now
  refine Contract.Wp.bind (wp_exec fun s₃ h₃ blocked eff' hq => ?_)
  have hold := hold.later h₃
  rw [hold.pending] at hq
  have he' := updateTransfers_ok hq
  change eff' = {
    value := (unsent s₃.db p.transactionId).length
    writes := cancelWrites s₃.db p.transactionId now } at he'
  have hcancel := fun l => @mem_cancelLocks s₃.db p.transactionId now l
  have hr : Reaches p 2 (found p.transactionId ++
      ([] ++ writeLocks Database [.transaction (d.transaction.dispute now)])) := by
    constructor <;> simp [found, level, Transaction.dispute, hid]
  refine ⟨fun l hl => .inr (.inr ?_), ?_⟩
  · rw [he'] at hl
    obtain ⟨y, hy, rfl⟩ := (hcancel l).mp hl
    refine chargeback_queues hold hr fun y' hy' heq => ?_
    obtain ⟨hmem, ht, -⟩ := mem_unsent.mp hy
    rw [← Table.eq_of_key hmem hy' (Row.bingxTransfer.inj heq)]
    exact ht
  have hv : eff'.value = (unsent s₃.db p.transactionId).length := by rw [he']
  rw [hv]
  have hr : Reaches p 3
      (_ ++ ([] ++ writeLocks Database (cancelWrites s₃.db p.transactionId now))) :=
    hr.append (by omega) fun l hl => by
      obtain ⟨y, -, rfl⟩ := (hcancel l).mp hl
      simp [level]
  refine chargeback_release (hold.executed he') hr (by simp [Txn.executed, hfirst])
    (fun y hy => List.mem_append_right _ ((hcancel _).mpr ⟨y, hy, rfl⟩)) hst (u := u) ?_ hemail
  rw [later_users h₃, later_users h₂, later_users h₁]
  exact hu

theorem meets_sbpChargebackWebhook :
    (payments unicode).Ok (bank unicode) (.sbpChargebackWebhook p)
      (program unicode (.sbpChargebackWebhook p)) {} s := by
  refine Contract.Wp.bind (Contract.Wp.bind (wp_exec fun s₁ h₁ blocked eff hq => ?_))
  rcases selectDossierForUpdate_ok h₁.inv.sound.user hq with
    ⟨hnone, rfl⟩ | ⟨d, u, ht, hu, hemail, rfl⟩
  · refine ⟨Asks.nil, wp_writeAuditLog fun s₂ now h₂ => ⟨Asks.nil, fun s₃ h₃ => ?_⟩⟩
    exact ⟨.unmatched rfl hnone rfl, rfl⟩
  · refine ⟨Asks.first rfl, ?_⟩
    have hold : Holding p.transactionId d.transaction (found p.transactionId) []
        (Txn.executed {} s₁ (Effect.mk (some d) [] (found p.transactionId))) s₁ :=
      ⟨h₁.inv, ht, List.mem_cons_self, rfl, rfl, rfl⟩
    dsimp only
    split
    · next hst =>
      intro s₂ h₂
      have hold := hold.later h₂
      exact ⟨.duplicate hold.row hst hold.pending, hold.calls⟩
    · next hst =>
      split
      · next hne =>
        refine wp_writeAuditLog fun s₂ now h₂ => ?_
        have hold := hold.later h₂
        refine ⟨hold.asks (by simp [hold.id_eq]), fun s₃ h₃ => ?_⟩
        have hold := (hold.executed rfl).later h₃
        exact ⟨.ineligible hold.row hst hne hold.pending, hold.calls⟩
      · next he => exact chargeback_charged hold rfl (not_not.mp he) hu hemail

end Chargeback

end MoneyWay
