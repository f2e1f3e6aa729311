import MoneyWay.Sessions.Rules

/-!
# Sessions of the deposit handler

A deposit locks the promo code it reserves and then the transaction it inserts, which
nobody else can have locked before it is there.
-/

set_option autoImplicit false

namespace MoneyWay

open Keyed ReadCommitted Python Prog Sql

section Deposit

variable {unicode : Unicode} {settings : Settings} {r : DepositCreateRequest}
  {x : Txn signature} {s s' : Shared signature} {promoCodeId : Option String}
  {discount commission amountUsdt : Decimal} {reserve ws : List Write} {id : String}

/-- What a deposit has before it inserts its transaction. -/
structure Quoted (r : DepositCreateRequest) (promoCodeId : Option String) (discount : Decimal)
    (reserve : List Write) (x : Txn signature) (s : Shared signature) : Prop where
  inv : Inv s
  reserved : Reserved s r.promoCode promoCodeId discount reserve
  held : x.held = writeLocks Database reserve
  pending : x.pending = reserve
  calls : x.calls = []

theorem reserved_promoCode {w : Write} (h : Reserved s r.promoCode promoCodeId discount reserve)
    (hw : w ∈ reserve) : ∃ p, w = .promoCode p := by
  cases h with
  | none => cases hw
  | code p => exact ⟨_, List.mem_singleton.mp hw⟩

/-- The promo code a session has reserved stays as it was. -/
theorem reserved_later {held : List (Row × LockMode)}
    (h : Reserved s r.promoCode promoCodeId discount reserve)
    (hl : (payments unicode).Later held s s') (hm : ∀ l ∈ writeLocks Database reserve, l ∈ held) :
    Reserved s' r.promoCode promoCodeId discount reserve := by
  cases h with
  | none hn => exact .none hn
  | code p hcode hp hactive hmax =>
    refine .code p hcode ?_ hactive hmax
    exact (later_promoCode (m := .noKeyUpdate) hl (hm _ (by simp))).trans hp

theorem Quoted.later (h : Quoted r promoCodeId discount reserve x s)
    (hl : (payments unicode).Later x.held s s') : Quoted r promoCodeId discount reserve x s' :=
  ⟨hl.inv, reserved_later h.reserved hl fun _ hm => h.held ▸ hm, h.held, h.pending, h.calls⟩

/-- What a deposit has once its transaction is inserted. -/
structure Inserted (r : DepositCreateRequest) (promoCodeId : Option String) (discount : Decimal)
    (reserve : List Write) (t : Transaction) (ws : List Write) (x : Txn signature)
    (s : Shared signature) : Prop where
  inv : Inv s
  reserved : Reserved s r.promoCode promoCodeId discount reserve
  fresh : s.db.transactions.find? t.id = none
  user : ∃ u, s.db.users.find? t.userId = some u
  reserve_lock : ∀ l ∈ writeLocks Database reserve, l ∈ x.held
  lock : (.transaction t.id, .noKeyUpdate) ∈ x.held
  pending : x.pending = reserve ++ .transaction t :: ws
  calls : x.calls = []

namespace Inserted

variable {t : Transaction}

theorem later (h : Inserted r promoCodeId discount reserve t ws x s)
    (hl : (payments unicode).Later x.held s s') :
    Inserted r promoCodeId discount reserve t ws x s' := by
  refine ⟨hl.inv, reserved_later h.reserved hl h.reserve_lock, ?_, ?_, h.reserve_lock, h.lock,
    h.pending, h.calls⟩
  · rw [later_transaction hl h.lock]
    exact h.fresh
  · rw [later_users hl]
    exact h.user

theorem executed (h : Inserted r promoCodeId discount reserve t ws x s) {β : Type}
    {eff : Effect Write Row β} {v : β} {ws' : List Write} {ls : List (Row × LockMode)}
    (he : eff = { value := v, writes := ws', locks := ls }) :
    Inserted r promoCodeId discount reserve t (ws ++ ws') (x.executed s eff) s := by
  subst he
  exact ⟨h.inv, h.reserved, h.fresh, h.user,
    fun l hl => List.mem_append_left _ (h.reserve_lock l hl), List.mem_append_left _ h.lock,
    by simp [Txn.executed, h.pending], h.calls⟩

end Inserted

/-- A deposit that has inserted its transaction only asks for locks on it. -/
theorem Inserted.asks {t : Transaction} (h : Inserted r promoCodeId discount reserve t ws x s) :
    Asks (.createDeposit settings r) x [(.transaction t.id, .keyShare)] s :=
  .covered .noKeyUpdate h.lock

/-- The antifraud check, with the alert it may have written. -/
theorem wp_checkDevice {t : Transaction} {Q : Unit → Txn signature → Shared signature → Prop}
    (h : Inserted r promoCodeId discount reserve t [] x s) (hid : t.id = id)
    (hnext : ∀ x' s' alerts,
      (alerts = [] ∨ ∃ other fingerprint at', r.deviceFingerprint = some fingerprint ∧
        alerts = [.fraudAlert (deviceReuseAlert r.user id fingerprint other at')]) →
      Inserted r promoCodeId discount reserve t alerts x' s' → Q () x' s') :
    (payments unicode).Wp (bank unicode) (.createDeposit settings r) (checkDevice r id) Q x s := by
  unfold checkDevice
  split
  · exact hnext x s [] (.inl rfl) h
  · next fingerprint hf =>
    refine Contract.Wp.bind (wp_exec fun s₁ h₁ blocked eff hq => ?_)
    have hins := h.later h₁
    have he : eff = { value := eff.value, writes := [], locks := [] } := by
      rw [← Except.ok.inj hq]
    refine ⟨by rw [he]; exact Asks.nil, ?_⟩
    have hins := hins.executed he
    split
    · exact hnext _ s₁ [] (.inl rfl) hins
    · next other hother =>
      refine wp_now fun s₂ now h₂ => wp_exec fun s₃ h₃ blocked eff' hq => ?_
      have hins := (hins.later h₂).later h₃
      have he' := insertFraudAlert_ok hq
      refine ⟨?_, hnext _ s₃ _ (.inr ⟨other, fingerprint, now, ?_, rfl⟩) (hins.executed he')⟩
      · simpa [he', deviceReuseAlert, hid] using hins.asks
      · exact (Option.filter_eq_some_iff.mp hf).1

/-- The rest of a deposit, after the insert. -/
theorem deposit_inserted {t : Transaction} {now : Timestamp}
    (h : Inserted r promoCodeId discount reserve t [] x s)
    (hstored : StoredAs (newTransaction r id promoCodeId commission amountUsdt now) t)
    (hquote : calculateDepositAmounts r.amountRub settings discount =
      .ok (commission, amountUsdt)) :
    (payments unicode).Wp (bank unicode) (.createDeposit settings r)
      (checkDevice r id >>= fun _ => do
        writeAuditLog .depositCreated (some r.user.id) (some id) (depositDetails r promoCodeId)
          (storedIp r) r.deviceFingerprint r.userAgent
        return {
          transactionId := id
          status := .pending
          amountRub := r.amountRub
          amountUsdt
          commission
          paymentUrl := none })
      (fun v => (payments unicode).AtCommit (.createDeposit settings r) (.deposit v)) x s := by
  have hid : t.id = id := hstored.id
  refine Contract.Wp.bind (wp_checkDevice h hid fun x₁ s₁ alerts halerts h₁ => ?_)
  refine Contract.Wp.bind (wp_writeAuditLog fun s₂ now' h₂ => ?_)
  have hins := h₁.later h₂
  refine ⟨by simpa [hid] using hins.asks, fun s₃ h₃ => ?_⟩
  have hins := (hins.executed rfl).later h₃
  have hpending := hins.pending
  rw [← List.cons_append, ← List.append_assoc] at hpending
  exact ⟨.created hins.reserved hquote hstored hins.fresh hins.user halerts hpending, hins.calls⟩

/-- A deposit, once the promo code is reserved. -/
theorem deposit_quoted {now : Timestamp} (h : Quoted r promoCodeId discount reserve x s)
    (hquote : calculateDepositAmounts r.amountRub settings discount =
      .ok (commission, amountUsdt)) :
    (payments unicode).Wp (bank unicode) (.createDeposit settings r)
      (recordDeposit r id promoCodeId commission amountUsdt now)
      (fun v => (payments unicode).AtCommit (.createDeposit settings r) (.deposit v)) x s := by
  refine Contract.Wp.bind (wp_exec fun s₁ h₁ blocked eff hq => ?_)
  have hquoted := h.later h₁
  obtain ⟨t, hstored, hfresh, huser, he⟩ := insertTransaction_ok hq
  have hnone (t' : Transaction) : .transaction t' ∉ x.pending := by
    intro ht'
    obtain ⟨c, hc⟩ := reserved_promoCode hquoted.reserved (hquoted.pending ▸ ht')
    cases hc
  rw [Database.transactions_replay hnone] at hfresh
  rw [Database.users_replay] at huser
  refine ⟨?_, ?_⟩
  · rw [he]
    refine .queue (r := .transaction t.id) ⟨fun l hl => ?_, t.id, rfl, hfresh⟩
    rw [hquoted.held] at hl
    obtain ⟨-, w, hw, htarget⟩ := mem_writeLocks.mp hl
    obtain ⟨c, rfl⟩ := reserved_promoCode hquoted.reserved hw
    exact ⟨c.id, (Option.some.inj htarget).symm⟩
  refine deposit_inserted ⟨hquoted.inv, hquoted.reserved, hfresh, huser, fun l hl => ?_, ?_, ?_,
    hquoted.calls⟩ hstored hquote
  · exact List.mem_append_left _ (hquoted.held ▸ hl)
  · exact mem_held_executed (w := .transaction t) (by simp [he]) rfl
  · simp [Txn.executed, hquoted.pending, he]

/-- The promo code of a deposit. -/
theorem wp_applyPromoCode {started : Timestamp}
    {Q : Option String × Decimal → Txn signature → Shared signature → Prop}
    (hi : Inv s) (hheld : x.held = []) (hpending : x.pending = []) (hcalls : x.calls = [])
    (hnext : ∀ promoCodeId discount reserve x' s',
      Quoted r promoCodeId discount reserve x' s' → Q (promoCodeId, discount) x' s') :
    (payments unicode).Wp (bank unicode) (.createDeposit settings r)
      (applyPromoCode r.promoCode started) Q x s := by
  unfold applyPromoCode
  split
  · next hn => exact hnext none _ [] x s ⟨hi, .none hn, hheld, hpending, hcalls⟩
  · next code hcode =>
    refine Contract.Wp.bind (wp_exec fun s₁ h₁ blocked eff hq => ⟨.first hheld, ?_⟩)
    rw [hpending] at hq
    rcases updatePromoReserve_ok hq with rfl | ⟨p, hp, rfl, hactive, hmax, rfl⟩
    · exact wp_raise
    · refine hnext (some p.id) _ _ _ s₁ ⟨h₁.inv,
        .code p hcode (Table.find?_of_mem hp) hactive hmax, ?_, ?_, hcalls⟩
      · simp [Txn.executed, hheld]
      · simp [Txn.executed, hpending]

theorem meets_createDeposit :
    (payments unicode).Ok (bank unicode) (.createDeposit settings r)
      (program unicode (.createDeposit settings r)) {} s := by
  refine Contract.Wp.bind (wp_now fun s₁ started h₁ => ?_)
  split
  · exact wp_raise
  refine Contract.Wp.bind (Contract.Wp.bind (wp_exec fun s₂ h₂ blocked eff hq => ⟨.first rfl, ?_⟩))
  have he : eff = { value := eff.value, writes := [], locks := [] } := by
    rw [← Except.ok.inj hq]
  rw [he]
  split
  · exact wp_raise
  refine Contract.Wp.bind (wp_applyPromoCode h₂.inv rfl rfl rfl
    fun promoCodeId discount reserve x s hquoted => wp_now fun s₃ now h₃ => wp_uuid fun id => ?_)
  dsimp only
  split
  · exact wp_raise
  · next commission amountUsdt hquote =>
    split
    · exact wp_raise
    · have hquoted := hquoted.later h₃
      exact deposit_quoted ⟨hquoted.inv, hquoted.reserved, hquoted.held, hquoted.pending,
        hquoted.calls⟩ hquote

end Deposit

end MoneyWay
