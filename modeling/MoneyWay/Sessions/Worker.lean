import MoneyWay.Sessions.Rules

/-!
# Sessions of the worker

A worker whose statements commit together holds the row of the transfer it has claimed,
so the transfer is what it was when the outcome is recorded; the transaction it locks
only then. A worker that commits statement by statement knows nothing between them, but
each of its statements by itself respects the laws.
-/

set_option autoImplicit false

namespace MoneyWay

open Keyed ReadCommitted Python Prog Sql

section Together

variable {unicode : Unicode} {settings : WorkerSettings} {x : Txn signature}
  {s s' : Shared signature} {y : BingxTransfer} {now : Timestamp} {ws : List Write}

/-- What a worker has that has claimed transfer `y`. -/
structure Working (settings : WorkerSettings) (y : BingxTransfer) (now : Timestamp)
    (ws : List Write) (x : Txn signature) (s : Shared signature) : Prop where
  inv : Inv s
  claimed : Claimed x s settings y now
  lock : (.bingxTransfer y.id, .update) ∈ x.held
  pending : x.pending = .bingxTransfer (claim now y) :: ws

/-- The worker has locked nothing but the transfer. -/
def HoldsOnly (y : BingxTransfer) (x : Txn signature) : Prop :=
  ∀ l ∈ x.held, l.1 = .bingxTransfer y.id

namespace Working

theorem later (h : Working settings y now ws x s) (hl : (payments unicode).Later x.held s s') :
    Working settings y now ws x s' :=
  ⟨hl.inv, ⟨(later_transfer hl h.lock).trans h.claimed.row, h.claimed.due.trans (later_clock hl),
    h.claimed.claimed⟩, h.lock, h.pending⟩

theorem executed (h : Working settings y now ws x s) {β : Type} {eff : Effect Write Row β} {v : β}
    {ws' : List Write} {ls : List (Row × LockMode)}
    (he : eff = { value := v, writes := ws', locks := ls }) :
    Working settings y now (ws ++ ws') (x.executed s eff) s := by
  subst he
  obtain ⟨q, hq, hrow⟩ := h.claimed.claimed
  exact ⟨h.inv, ⟨h.claimed.row, h.claimed.due, q, List.mem_append_left _ hq, hrow⟩,
    List.mem_append_left _ h.lock, by simp [Txn.executed, h.pending]⟩

theorem mem (h : Working settings y now ws x s) : y ∈ s.db.bingxTransfers.rows :=
  Table.mem_of_find? h.claimed.row

/-- A worker waits for the transaction of its transfer. -/
theorem asks (h : Working settings y now ws x s) (honly : HoldsOnly y x)
    (m : LockMode) :
    Asks (.processTransfer settings) x [(.transaction y.transactionId, m)] s :=
  .queue ⟨y, h.mem, rfl, honly⟩

theorem owner (h : Working settings y now ws x s) :
    ∃ t, s.db.transactions.find? y.transactionId = some t := by
  obtain ⟨t, ht, -⟩ := h.inv.sound.owner y h.mem
  exact ⟨t, ht⟩

end Working

/-- The update of the claimed transfer that every outcome starts with. -/
theorem wp_settleTransfer {texts : List (ℕ × Option String)} {response : Json}
    {set : BingxTransfer → BingxTransfer} {Q : Unit → Txn signature → Shared signature → Prop}
    (h : Working settings y now [] x s) (honly : HoldsOnly y x) (hid : ∀ y, (set y).id = y.id)
    (hnext : ∀ x' s', fits texts = true → response.storable = true → x'.calls = x.calls →
      HoldsOnly y x' → Working settings y now [.bingxTransfer (set (claim now y))] x' s' →
      Q () x' s') :
    (payments unicode).Wp (bank unicode) (.processTransfer settings)
      (exec (updateTransfer (returning (claim now y)).id texts (some response) (fun _ => true) set))
      Q x s := by
  refine wp_exec fun s₁ h₁ blocked eff hq => ?_
  have hwork := h.later h₁
  rw [hwork.pending] at hq
  have he : eff = { value := (), writes := [.bingxTransfer (set (claim now y))] } :=
    updateTransfer_ok (by simp [returning, claim]) hq
  have hwanted : Effect.wanted (σ := signature) eff = [(.bingxTransfer y.id, .noKeyUpdate)] := by
    simp [he, hid, claim]
  obtain ⟨hfits, hresponse⟩ := fits_of_updateTransfer hq
  refine ⟨?_, hnext _ s₁ hfits hresponse rfl (fun l hl => ?_) (hwork.executed he)⟩
  · rw [hwanted]
    exact .covered .update h.lock
  · rcases List.mem_append.mp hl with hl | hl
    · exact honly l hl
    · rw [hwanted] at hl
      rw [List.mem_singleton.mp hl]

/-- A guarded update stays what it was: the row is locked if it was written. -/
theorem paidUpdate_later {set : Transaction → Transaction} {held : List (Row × LockMode)}
    {x' : Txn signature} (h : PaidUpdate x s y set ws) (hl : (payments unicode).Later held s s')
    (hm : ∀ w ∈ ws, (.transaction y.transactionId, .noKeyUpdate) ∈ held)
    (hx : ∀ q ∈ x.snapshots, q ∈ x'.snapshots) : PaidUpdate x' s' y set ws := by
  obtain ⟨q, hq, hy, t, ht, hcase⟩ := h
  refine ⟨q, hx q hq, hy, t, ht, hcase.imp (fun h => ⟨h.1, ?_, h.2.2⟩) id⟩
  obtain ⟨-, hrow, rfl⟩ := h
  exact (later_transaction hl (hm _ (List.mem_singleton_self _))).trans hrow

/-- The guarded update of the transaction and the audit log, which end most outcomes. -/
theorem wp_updatePaid {texts : List (ℕ × Option String)} {set : Transaction → Transaction}
    {eventType : EventType} {payload : Details} {a : Answer}
    (h : Working settings y now ws x s) (honly : HoldsOnly y x) (hid : ∀ t, (set t).id = t.id)
    (hws : ∀ t, .transaction t ∉ ws) (hcalls : x.calls = [(y.request, a)])
    (hrec : ∀ x' s' vs now', PaidUpdate x' s' y set vs →
      Recorded x' s' y now (answerRoute unicode a)
        (ws ++ vs ++ [transferAudit eventType y payload now'])) :
    (payments unicode).Wp (bank unicode) (.processTransfer settings)
      (updatePaid y.transactionId texts set >>= fun _ =>
        writeAuditLog eventType none (some y.transactionId) payload none none none)
      (fun _ => (payments unicode).AtCommit (.processTransfer settings) (.processed true)) x s := by
  refine Contract.Wp.bind (wp_exec fun s₁ h₁ blocked eff hq => ?_)
  have hwork := h.later h₁
  obtain ⟨t, ht⟩ := hwork.owner
  have hview : (replay x.pending s₁.db).transactions.find? y.transactionId = some t := by
    rw [hwork.pending, Database.transactions_replay (by simpa using hws), ht]
  have he := updateTransaction_ok hview hq
  have htid : (set t).id = y.transactionId := (hid t).trans (Table.key_of_find? ht)
  have hdone := hwork.executed (show eff = { value := (), writes := eff.writes } by rw [he])
  -- whether the transaction still is paid decides if it is written
  have hpaid : PaidUpdate (x.executed s₁ eff) s₁ y set eff.writes ∧
      Asks (.processTransfer settings) x (Effect.wanted (σ := signature) eff) s₁ ∧
      ((.transaction y.transactionId, .noKeyUpdate) ∈ (x.executed s₁ eff).held ∨
        eff.writes = [] ∧ HoldsOnly y (x.executed s₁ eff)) := by
    have hread : s₁ ∈ (x.executed s₁ eff).snapshots := by simp [Txn.executed]
    by_cases hst : t.status = .paid
    · simp only [hst, decide_true, if_true] at he
      refine ⟨⟨s₁, hread, hwork.claimed.row, t, ht, .inl ⟨hst, ht, by rw [he]⟩⟩, ?_, .inl ?_⟩
      · simpa [he, htid] using hwork.asks honly .noKeyUpdate
      · exact mem_held_executed (w := .transaction (set t)) (by simp [he]) (by simp [htid])
    · simp only [hst, decide_false, Bool.false_eq_true, if_false] at he
      refine ⟨⟨s₁, hread, hwork.claimed.row, t, ht, .inr ⟨hst, by rw [he]⟩⟩, ?_,
        .inr ⟨by rw [he], ?_⟩⟩
      · simpa [he] using Asks.nil
      · simpa [he, HoldsOnly, Txn.executed] using honly
  obtain ⟨hupd, hask, hlock⟩ := hpaid
  refine ⟨hask, wp_writeAuditLog fun s₂ now' h₂ => ?_⟩
  have hdone := hdone.later h₂
  refine ⟨?_, fun s₃ h₃ => ?_⟩
  · rcases hlock with hlock | ⟨-, honly⟩
    · exact .covered .noKeyUpdate hlock
    · exact hdone.asks honly .keyShare
  have hlater := h₂.trans h₃ fun _ hm => List.mem_append_left _ hm
  have hend := (hdone.executed rfl).later h₃
  refine .processed hend.claimed hcalls (hrec _ _ eff.writes now' ?_) hend.pending
  refine paidUpdate_later hupd hlater (fun w hw => ?_) fun q hq => List.mem_append_left _ hq
  rcases hlock with hlock | ⟨hnil, -⟩
  · exact hlock
  · rw [hnil] at hw
    cases hw

/-- Every outcome of the call is recorded for the claimed transfer. -/
theorem wp_follow {a : Answer} {route : Route} (h : Working settings y now [] x s)
    (honly : HoldsOnly y x) (hcalls : x.calls = [(y.request, a)])
    (hroute : answerRoute unicode a = route) :
    (payments unicode).Wp (bank unicode) (.processTransfer settings)
      (follow (returning (claim now y)) route)
      (fun _ => (payments unicode).AtCommit (.processTransfer settings) (.processed true)) x s := by
  cases route with
  | complete bingxTransferId response =>
    refine wp_now fun s₁ now₁ h₁ => Contract.Wp.bind (wp_settleTransfer (h.later h₁) honly
      (fun _ => rfl) fun x₂ s₂ hfits hresponse hc honly h₂ => ?_)
    refine wp_updatePaid (y := y) h₂ honly (fun _ => rfl) (by simp) (hc.trans hcalls)
      fun x s vs now' hp => ?_
    rw [hroute]
    exact .completed hfits hresponse hp
  | hold payload =>
    refine wp_now fun s₁ now₁ h₁ => Contract.Wp.bind (wp_settleTransfer (h.later h₁) honly
      (fun _ => rfl) fun x₂ s₂ _ hresponse hc honly h₂ => ?_)
    refine Contract.Wp.bind (wp_exec fun s₃ h₃ blocked eff hq => ?_)
    have hwork := h₂.later h₃
    have he := insertFraudAlert_ok hq
    refine ⟨?_, wp_writeAuditLog fun s₄ now₂ h₄ => ?_⟩
    · simpa [he, lowBalanceAlert, returning, claim] using hwork.asks honly .keyShare
    have hwork := (hwork.executed he).later h₄
    refine ⟨.covered .keyShare ?_, fun s₅ h₅ => ?_⟩
    · simp [he, Txn.executed, lowBalanceAlert]
    have hwork := (hwork.executed rfl).later h₅
    refine .processed hwork.claimed (hc.trans hcalls) ?_ hwork.pending
    rw [hroute]
    exact .held hresponse
  | fail payload =>
    refine wp_now fun s₁ now₁ h₁ => Contract.Wp.bind (wp_settleTransfer (h.later h₁) honly
      (fun _ => rfl) fun x₂ s₂ _ hresponse hc honly h₂ => ?_)
    refine wp_updatePaid (y := y) h₂ honly (fun _ => rfl) (by simp) (hc.trans hcalls)
      fun x s vs now' hp => ?_
    rw [hroute]
    exact .failed hresponse hp
  | retry payload =>
    simp only [follow, retryOrEscalateTransfer]
    split
    · next hn =>
      refine wp_now fun s₁ now₁ h₁ => Contract.Wp.bind (wp_settleTransfer (h.later h₁) honly
        (fun _ => rfl) fun x₂ s₂ _ hresponse hc honly h₂ => ?_)
      intro s₃ h₃
      have hwork := h₂.later h₃
      refine .processed hwork.claimed (hc.trans hcalls) ?_ hwork.pending
      rw [hroute]
      exact .retried hresponse hn
    · next hn =>
      refine wp_now fun s₁ now₁ h₁ => Contract.Wp.bind (wp_settleTransfer (h.later h₁) honly
        (fun _ => rfl) fun x₂ s₂ _ hresponse hc honly h₂ => ?_)
      refine wp_now fun s₃ now₂ h₃ => wp_updatePaid (y := y) (h₂.later h₃) honly (fun _ => rfl)
        (by simp) (hc.trans hcalls) fun x s vs now' hp => ?_
      rw [hroute]
      exact .escalated hresponse (not_lt.mp hn) hp
  | uncaught => exact wp_raise

/-- The status a claim asks for. -/
theorem status_of_claimable {staleCutoff : Option Timestamp} {retryCutoff : Timestamp}
    {d : Database} (h : claimable now staleCutoff retryCutoff d y = true) :
    y.status = .pending ∨ y.status = .processing := by
  simp only [claimable, Bool.and_eq_true, Bool.or_eq_true, decide_eq_true_eq,
    Option.any_eq_true] at h
  rcases h with ⟨⟨hs, -⟩ | ⟨_, -, hs, -⟩, -⟩
  · exact .inl hs
  · exact .inr hs

/-- What is claimed is due. -/
theorem due_of_claimable {staleCutoff : Option Timestamp} {retryCutoff : Timestamp}
    (hs : Inv s) (hy : y ∈ s.db.bingxTransfers.rows) (hnow : now ≤ s.ext.now)
    (h : claimable now staleCutoff retryCutoff s.db y = true) : y.scheduledAt ≤ s.ext.now := by
  simp only [claimable, Bool.and_eq_true, Bool.or_eq_true, decide_eq_true_eq,
    Option.any_eq_true] at h
  rcases h with ⟨⟨-, hdue, -⟩ | ⟨_, -, hst, -⟩, -⟩
  · exact hdue.trans hnow
  · -- a stuck transfer was due when it was claimed the first time
    exact hs.due y hy hst

theorem meets_processTransfer :
    (payments unicode).Ok (bank unicode) (.processTransfer settings)
      (program unicode (.processTransfer settings)) {} s := by
  refine Contract.Wp.bind (Contract.Wp.bind (wp_clock fun s₁ h₁ =>
    wp_exec fun s₂ h₂ blocked eff hq => ⟨.first rfl, ?_⟩))
  generalize hnow : s₁.ext.now = now at hq ⊢
  rcases updateNextTransfer_ok hq with rfl | ⟨y, hy, hclaim, rfl⟩
  · exact fun s₃ h₃ => .idle rfl rfl
  have hstatus := status_of_claimable hclaim
  have hdue := due_of_claimable h₂.inv hy (hnow ▸ later_clock h₂) hclaim
  have hfind := Table.find?_of_mem hy
  have hwork : Working settings y now [] (Txn.executed {} s₂ (Effect.mk
      (some (returning (claim now y))) [.bingxTransfer (claim now y)]
      [(.bingxTransfer y.id, .update)])) s₂ :=
    ⟨h₂.inv, ⟨hfind, hdue, s₂, by simp [Txn.executed], hfind, hclaim⟩, by simp [Txn.executed], rfl⟩
  have honly : HoldsOnly y (Txn.executed {} s₂ (Effect.mk
      (some (returning (claim now y))) [.bingxTransfer (claim now y)]
      [(.bingxTransfer y.id, .update)])) := by
    simp [HoldsOnly, Txn.executed, claim]
  refine Contract.Wp.bind ?_
  simp only [createInternalTransfer]
  split
  · exact wp_raise
  refine fun s₃ h₃ => ?_
  have hwork := hwork.later h₃
  have hown : ∃ z ∈ s₃.db.bingxTransfers.rows, z.request = y.request := ⟨y, hwork.mem, rfl⟩
  have hsend := inv_send h₃.inv hown
  have hlink : (payments unicode).Link s₃ ⟨s₃.db, s₃.ext.send y.request⟩ :=
    ⟨h₃.inv, hsend.1, hsend.2⟩
  refine ⟨⟨y, hwork.mem, rfl, hwork.claimed.due, fun _ => hstatus⟩, hlink, fun a => ?_⟩
  have hwork := hwork.later (Contract.later_of_ext hlink)
  change Contract.Wp _ _ _ (recordOutcome unicode (returning (claim now y)) (readAnswer unicode a)
    >>= fun _ => pure true) _ _ _
  refine Contract.Wp.bind ?_
  rw [recordOutcome_eq]
  exact wp_follow ⟨hwork.inv, ⟨hwork.claimed.row, hwork.claimed.due, hwork.claimed.claimed⟩,
    hwork.lock, hwork.pending⟩ honly rfl rfl

theorem meets_resetOnHold {transferId : String} :
    (payments unicode).Ok (bank unicode) (.resetOnHold transferId)
      (program unicode (.resetOnHold transferId)) {} s := by
  refine Contract.Wp.bind (wp_exec fun s₁ h₁ blocked eff hq => ⟨.first rfl, ?_⟩)
  intro s₂ h₂
  refine ⟨?_, rfl⟩
  cases hf : s₁.db.bingxTransfers.find? transferId with
  | none =>
    have he := updateTransfer_none hf hq
    exact .ignored (by simp [Txn.executed, he])
  | some y =>
    have he := updateTransfer_ok hf hq
    by_cases hst : y.status = .onHold
    · simp only [hst, decide_true, if_true] at he
      have hid : y.id = transferId := Table.key_of_find? hf
      have hlock : (.bingxTransfer transferId, .noKeyUpdate) ∈ (Txn.executed {} s₁ eff).held :=
        mem_held_executed (w := .bingxTransfer y.release) (by simp [he])
          (by simp [BingxTransfer.release, hid])
      exact .reset ((later_transfer h₂ hlock).trans hf) hst (by simp [Txn.executed, he])
    · simp only [hst, decide_false, Bool.false_eq_true, if_false] at he
      exact .ignored (by simp [Txn.executed, he])

end Together

end MoneyWay
