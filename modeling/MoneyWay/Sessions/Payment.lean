import MoneyWay.Sessions.Rules

/-!
# Sessions of the payment webhook

Whatever other sessions commit between its statements, the payment webhook commits
one of its outcomes: it holds the transaction's row from its first statement on.
-/

set_option autoImplicit false

namespace MoneyWay

open Keyed ReadCommitted Python Prog Sql

section Payment

variable {unicode : Unicode} {p : SBPPaymentWebhook} {holdMinutes : ℤ} {x : Txn signature}
  {s : Shared signature} {t : Transaction}

/-- A payment webhook that has found its transaction pending waits for rows further
down in the order of locks. -/
theorem payment_queues {locks : List (Row × LockMode)} {ws : List Write} {r : Row}
    (h : Holding p.transactionId t locks ws x s) (ht : t.status = .pending)
    (hlevel : ∀ l ∈ locks, level l.1 < level r)
    (hids : ∀ l ∈ locks, ∀ id, l.1 = .transaction id → id = p.transactionId) :
    Queues x.held r s (.sbpPaymentWebhook p holdMinutes) := by
  rw [Queues, h.held]
  exact ⟨hlevel, t, h.row, ht, fun l hl id he => (hids l hl id he).trans h.id_eq.symm⟩

theorem payment_mismatch {amountRub : Decimal}
    (h : Holding p.transactionId t (found p.transactionId) [] x s) (hp : p.status = .paid)
    (ht : t.status = .pending) (ha : p.amountRub = some amountRub)
    (hne : ¬ amountRub.SameValue t.amountRub.toDecimal) :
    (payments unicode).Wp (bank unicode) (.sbpPaymentWebhook p holdMinutes)
      (recordAmountMismatch t amountRub)
      (fun _ => (payments unicode).AtCommit (.sbpPaymentWebhook p holdMinutes) .accepted) x s := by
  refine wp_now fun s₁ now h₁ => Contract.Wp.bind (wp_exec fun s₂ h₂ blocked eff hq => ?_)
  have hold := (h.later h₁).later h₂
  have he := insertFraudAlert_ok hq
  refine ⟨hold.asks (by simp [he, amountMismatchAlert, hold.id_eq]), ?_⟩
  refine wp_writeAuditLog fun s₃ now' h₃ => ?_
  have hold := (hold.executed he).later h₃
  refine ⟨hold.asks (by simp [hold.id_eq]), fun s₄ h₄ => ?_⟩
  have hold := (hold.executed rfl).later h₄
  exact ⟨.mismatched hp hold.row ht ha hne hold.pending, hold.calls⟩

theorem payment_rejected (h : Holding p.transactionId t (found p.transactionId) [] x s)
    (hp : p.status = .failed) (ht : t.status = .pending) :
    (payments unicode).Wp (bank unicode) (.sbpPaymentWebhook p holdMinutes)
      (markTransactionFailed p)
      (fun _ => (payments unicode).AtCommit (.sbpPaymentWebhook p holdMinutes) .accepted) x s := by
  refine wp_now fun s₁ now h₁ => Contract.Wp.bind (wp_exec fun s₂ h₂ blocked eff hq => ?_)
  have hold := (h.later h₁).later h₂
  rw [hold.pending] at hq
  have hfits := fits_of_updateTransaction hq
  have he := updateTransaction_ok hold.row hq
  refine ⟨hold.asks (by simp [he, Transaction.reject, hold.id_eq]), ?_⟩
  have hold := hold.executed he
  refine Contract.Wp.bind (wp_releasePromoCode (t := t) (u := t.reject p.sbpPaymentId now)
    (fun s' hl => ?_) rfl fun s₃ h₃ => ?_)
  · rw [hold.pending]
    exact ⟨by simp [Transaction.reject, hold.id_eq], rfl⟩
  have hold := hold.later h₃
  have hrow : s₃.db.transactions.find? t.id = some t := by rw [hold.id_eq, hold.row]
  refine ⟨fun c => .queue (payment_queues hold ht ?_ ?_), ?_⟩
  · simp [found, level, Transaction.reject]
  · simp [found, Transaction.reject, hold.id_eq]
  refine wp_writeAuditLog fun s₄ now' h₄ => ?_
  have hold := (hold.executed rfl).later h₄
  refine ⟨hold.asks (by simp), fun s₅ h₅ => ?_⟩
  have hold := (hold.executed rfl).later h₅
  refine ⟨.rejected hp hold.row ht hfits
    (released_later (by simp [Txn.executed]) hrow
      (h₄.trans h₅ fun _ hm => List.mem_append_left _ hm) fun w hw r hr => mem_held_executed hw hr)
    hold.pending, hold.calls⟩

theorem payment_paid {amountRub : Decimal} {payerName payerPhone : String}
    (h : Holding p.transactionId t (found p.transactionId) [] x s) (hp : p.status = .paid)
    (ht : t.status = .pending) (ha : p.amountRub = some amountRub)
    (hsame : amountRub.SameValue t.amountRub.toDecimal) :
    (payments unicode).Wp (bank unicode) (.sbpPaymentWebhook p holdMinutes)
      (recordPayment p t payerName payerPhone holdMinutes)
      (fun _ => (payments unicode).AtCommit (.sbpPaymentWebhook p holdMinutes) .accepted) x s := by
  refine wp_now fun s₁ now h₁ => Contract.Wp.bind (wp_exec fun s₂ h₂ blocked eff hq => ?_)
  have hold := (h.later h₁).later h₂
  rw [hold.pending] at hq
  have hfits := fits_of_updateTransaction hq
  have he := updateTransaction_ok hold.row hq
  refine ⟨hold.asks (by simp [he, Transaction.pay, hold.id_eq]), ?_⟩
  have hold := hold.executed he
  -- the KYC record
  refine Contract.Wp.bind (wp_now fun s₃ now₁ h₃ => wp_exec fun s₄ h₄ blocked eff hq => ?_)
  have hold := (hold.later h₃).later h₄
  rw [hold.pending] at hq
  have hpayer := fits_of_upsertKyc hq
  have he := upsertKyc_ok (hold.inv.sound.bare hold.row ht).1 hq
  refine ⟨?_, ?_⟩
  · rw [he]
    refine hold.asks_insert (payment_queues hold ht ?_ ?_)
    · simp [found, level, Transaction.pay]
    · simp [found, Transaction.pay, hold.id_eq]
  have hold := hold.executed he
  -- the payout task
  refine Contract.Wp.bind (wp_clock fun s₅ h₅ => wp_uuid fun id =>
    Contract.Wp.bind (wp_exec fun s₆ h₆ blocked eff hq => ?_))
  have hold := ((hold.later h₅).given id).later h₆
  rw [hold.pending] at hq
  have hbare := hold.inv.sound.bare_idempotencyKey hold.row ht
  obtain ⟨hfresh, he⟩ := insertTransfer_ok (x := newTransfer t holdMinutes id s₅.ext.now)
    (by simpa [newTransfer, hold.id_eq] using hbare) hq
  refine ⟨?_, ?_⟩
  · rw [he, newTransfer, hold.id_eq]
    refine hold.asks_insert (payment_queues hold ht ?_ ?_)
    · simp [found, level, Transaction.pay, kycRecord]
    · simp [found, Transaction.pay, kycRecord, hold.id_eq]
  have hold := hold.executed he
  have hlock := hold.mem_held (l := (.bingxTransfer id, .noKeyUpdate)) (by simp [newTransfer])
  refine wp_exec fun s₇ h₇ blocked eff hq => ?_
  have he : eff = { value := (), writes := [.notify notifyChannelBingxTransfers] } :=
    (Except.ok.inj hq).symm
  have hold := hold.later h₇
  refine ⟨by simp [he, Asks.nil], ?_⟩
  have hold := hold.executed he
  refine wp_writeAuditLog fun s₈ now₃ h₈ => ?_
  have hold := hold.later h₈
  refine ⟨hold.asks (by simp), fun s₉ h₉ => ?_⟩
  have hold := (hold.executed rfl).later h₉
  -- the lock on the new row has kept others from taking its id
  have hnew := (later_transfer h₉ (List.mem_append_left _ (List.mem_append_left _ hlock))).trans
    ((later_transfer h₈ (List.mem_append_left _ hlock)).trans (later_transfer h₇ hlock))
  -- the clock has been read between the insert of the KYC record and the commit
  have hclock : s₅.ext.now ≤ s₉.ext.now := (later_clock h₆).trans ((later_clock h₇).trans
    ((later_clock h₈).trans (later_clock h₉)))
  exact ⟨.paid hp hold.row ht ha hsame (hnew.trans hfresh) hfits hpayer
    ⟨s₄, by simp [Txn.executed], later_clock h₅⟩ hclock hold.pending, hold.calls⟩

theorem meets_sbpPaymentWebhook :
    (payments unicode).Ok (bank unicode) (.sbpPaymentWebhook p holdMinutes)
      (program unicode (.sbpPaymentWebhook p holdMinutes)) {} s := by
  refine Contract.Wp.bind (Contract.Wp.bind (wp_exec fun s₁ h₁ blocked eff hq => ?_))
  rcases selectTransactionForUpdate_ok hq with ⟨hnone, rfl⟩ | ⟨t, ht, rfl⟩
  · refine ⟨Asks.nil, wp_writeAuditLog fun s₂ now h₂ => ⟨Asks.nil, fun s₃ h₃ => ?_⟩⟩
    exact ⟨.unmatched ⟨s₁, by simp [Txn.executed], hnone⟩ rfl, rfl⟩
  · refine ⟨Asks.first rfl, ?_⟩
    have hold : Holding p.transactionId t (found p.transactionId) []
        (Txn.executed {} s₁ (Effect.mk (some t) [] (found p.transactionId))) s₁ :=
      ⟨h₁.inv, ht, List.mem_cons_self, rfl, rfl, rfl⟩
    have ignored (hst : t.status ≠ .pending) :
        (payments unicode).AtCommit (.sbpPaymentWebhook p holdMinutes) .accepted
          (Txn.executed {} s₁ (Effect.mk (some t) [] (found p.transactionId))) s₁ := by
      intro s₂ h₂
      have hold := hold.later h₂
      exact ⟨.ignored hold.row hst hold.pending, hold.calls⟩
    dsimp only
    split
    · next hst => exact ignored (by simp [hst])
    · split
      · next hp =>
        split
        · next hst => exact ignored hst
        · next hst => exact payment_rejected hold hp (not_not.mp hst)
      · next hp =>
        split
        · next hst => exact ignored hst
        · next hst =>
          have hst := not_not.mp hst
          split
          · split
            · exact wp_raise
            · next amountRub ha =>
              split
              · next hne => exact payment_mismatch hold hp hst ha hne
              · next hsame => exact payment_paid hold hp hst ha (not_not.mp hsame)
          · exact wp_raise

end Payment

end MoneyWay
