import MoneyWay.Library.ReadCommitted.Soundness
import MoneyWay.Sessions.Admin
import MoneyWay.Sessions.Chargeback
import MoneyWay.Sessions.Deposit
import MoneyWay.Sessions.Payment
import MoneyWay.Sessions.Worker

/-!
# The payment flow keeps its laws

What each job commits is lawful, and so is every single statement of a worker that
commits them one by one. With the sessions' rules this makes `payments` a valid
contract of the running system, for any mix of jobs.
-/

set_option autoImplicit false

namespace MoneyWay

open Keyed ReadCommitted Python Prog Sql

/-! ## Lawful lists of writes -/

/-- The writes the laws speak of. -/
def Write.bound : Write → Bool
  | .transaction _ => true
  | .bingxTransfer _ => true
  | .kycRecord _ => true
  | _ => false

namespace Lawful

variable {d : Database} {ws : List Write}

/-- Promo codes, the blacklist and the logs may be written freely. -/
theorem of_bound (h : Lawful d (ws.filter Write.bound)) : Lawful d ws := by
  have hmem {w : Write} (hw : w ∈ ws) (hb : w.bound = true := by rfl) :
      w ∈ ws.filter Write.bound := List.mem_filter.mpr ⟨hw, hb⟩
  have hsub {w : Write} (hw : w ∈ ws.filter Write.bound) : w ∈ ws := (List.mem_filter.mp hw).1
  refine ⟨fun t ht => h.transaction t (hmem ht), fun t t' ht ht' => h.one t t' (hmem ht) (hmem ht'),
    fun x hx => ?_, fun k hk => ?_⟩
  · rcases h.transfer x (hmem hx) with hold | ⟨hnew, hno, honly, t, ht, hrest⟩
    · exact .inl hold
    · exact .inr ⟨hnew, hno, fun y hy => honly y (hmem hy), t, hsub ht, hrest⟩
  · obtain ⟨t, ht, hrest⟩ := h.kyc k (hmem hk)
    exact ⟨t, hsub ht, hrest⟩

theorem nil : Lawful d [] := ⟨by simp, by simp, by simp, by simp⟩

/-- Writes to rows that are there. -/
theorem update (htx : ∀ t', .transaction t' ∈ ws →
      ∃ t, d.transactions.find? t'.id = some t ∧ t.Moves t')
    (hone : ∀ t' t'', .transaction t' ∈ ws → .transaction t'' ∈ ws → t' = t'')
    (htr : ∀ x', .bingxTransfer x' ∈ ws →
      ∃ x, d.bingxTransfers.find? x'.id = some x ∧ x.SamePayout x')
    (hkyc : ∀ k, .kycRecord k ∉ ws) : Lawful d ws :=
  ⟨fun t' ht' => .inl (htx t' ht'), hone, fun x' hx' => .inl (htr x' hx'),
    fun k hk => absurd hk (hkyc k)⟩

/-- One transaction moves. -/
theorem transaction_update {t t' : Transaction} (ht : d.transactions.find? t'.id = some t)
    (hm : t.Moves t') : Lawful d [.transaction t'] :=
  .update (fun u hu => by cases List.mem_singleton.mp hu; exact ⟨t, ht, hm⟩) (by simp) (by simp)
    (by simp)

/-- One transfer is updated. -/
theorem transfer_update {y y' : BingxTransfer} (hy : d.bingxTransfers.find? y'.id = some y)
    (hs : y.SamePayout y') : Lawful d [.bingxTransfer y'] :=
  .update (by simp) (by simp)
    (fun u hu => by cases List.mem_singleton.mp hu; exact ⟨y, hy, hs⟩) (by simp)

end Lawful

namespace Transaction

variable {t : Transaction} {now : Timestamp} {sbpPaymentId bingxTransferId : Option String}

theorem moves_reject (h : t.status = .pending) : t.Moves (t.reject sbpPaymentId now) :=
  ⟨⟨rfl, rfl, rfl, rfl, rfl, rfl, rfl, rfl, rfl, rfl⟩, .inr (h ▸ .reject)⟩

theorem moves_pay (h : t.status = .pending) : t.Moves (t.pay sbpPaymentId now) :=
  ⟨⟨rfl, rfl, rfl, rfl, rfl, rfl, rfl, rfl, rfl, rfl⟩, .inr (h ▸ .pay)⟩

theorem moves_complete (h : t.status = .paid) : t.Moves (t.complete bingxTransferId now) :=
  ⟨⟨rfl, rfl, rfl, rfl, rfl, rfl, rfl, rfl, rfl, rfl⟩, .inr (h ▸ .complete)⟩

theorem moves_escalate (h : t.status = .paid) : t.Moves (t.escalate now) :=
  ⟨⟨rfl, rfl, rfl, rfl, rfl, rfl, rfl, rfl, rfl, rfl⟩, .inr (h ▸ .escalate)⟩

theorem moves_fail (h : t.status = .paid) : t.Moves (t.fail now) :=
  ⟨⟨rfl, rfl, rfl, rfl, rfl, rfl, rfl, rfl, rfl, rfl⟩, .inr (h ▸ .fail)⟩

theorem moves_dispute (h : t.status ∈ chargebackEligibleStatuses) : t.Moves (t.dispute now) := by
  refine ⟨⟨rfl, rfl, rfl, rfl, rfl, rfl, rfl, rfl, rfl, rfl⟩, .inr ?_⟩
  have hcases : t.status = .paid ∨ t.status = .completed ∨ t.status = .error := by
    simpa [chargebackEligibleStatuses] using h
  change TransactionStatus.Move t.status .chargeback
  rcases hcases with he | he | he <;> rw [he]
  · exact .disputePaid
  · exact .disputeCompleted
  · exact .disputeError

end Transaction

namespace BingxTransfer

variable (x : BingxTransfer) (now : Timestamp)

theorem samePayout_claim : x.SamePayout (claim now x) := ⟨rfl, rfl, rfl, rfl, rfl, rfl, rfl⟩

theorem samePayout_cancel : x.SamePayout (x.cancel now) := ⟨rfl, rfl, rfl, rfl, rfl, rfl, rfl⟩

theorem samePayout_settle (status : TransferStatus) (response : Json) :
    x.SamePayout (x.settle status response now) := ⟨rfl, rfl, rfl, rfl, rfl, rfl, rfl⟩

theorem samePayout_complete (bingxTransferId : Option String) (response : Json) :
    x.SamePayout (x.complete bingxTransferId response now) := ⟨rfl, rfl, rfl, rfl, rfl, rfl, rfl⟩

theorem samePayout_release : x.SamePayout x.release := ⟨rfl, rfl, rfl, rfl, rfl, rfl, rfl⟩

end BingxTransfer

/-! ## What a commit writes to the tables the laws speak of -/

/-- How a route settles a claimed transfer, and the update of its transaction, if any. -/
inductive Settled (y : BingxTransfer) (now : Timestamp) :
    Route → BingxTransfer → Option (Transaction → Transaction) → Prop
  | completed {bingxTransferId : Option String} {response : Json} {now₁ : Timestamp} :
      fits [(128, bingxTransferId)] = true → Settled y now (.complete bingxTransferId response)
        ((claim now y).complete bingxTransferId response now₁)
        (some (Transaction.complete bingxTransferId now₁))
  | held {payload : Json} {now₁ : Timestamp} :
      Settled y now (.hold payload) ((claim now y).settle .onHold payload now₁) none
  | failed {payload : Json} {now₁ : Timestamp} :
      Settled y now (.fail payload) ((claim now y).settle .failed payload now₁)
        (some (Transaction.fail now₁))
  | retried {payload : Json} {now₁ : Timestamp} : y.attemptNumber + 1 < maxTransferAttempts →
      Settled y now (.retry payload) ((claim now y).settle .pending payload now₁) none
  | escalated {payload : Json} {now₁ now₂ : Timestamp} :
      maxTransferAttempts ≤ y.attemptNumber + 1 →
      Settled y now (.retry payload) ((claim now y).settle .error payload now₁)
        (some (Transaction.escalate now₂))

namespace Settled

variable {y y' : BingxTransfer} {now : Timestamp} {route : Route}
  {set : Option (Transaction → Transaction)}

theorem samePayout (h : Settled y now route y' set) : y.SamePayout y' := by
  have hclaim := y.samePayout_claim now
  cases h with
  | completed => exact hclaim.trans (BingxTransfer.samePayout_complete ..)
  | _ => exact hclaim.trans (BingxTransfer.samePayout_settle ..)

theorem attemptNumber (h : Settled y now route y' set) :
    y'.attemptNumber = y.attemptNumber + 1 := by
  cases h <;> rfl

theorem ne_cancelled (h : Settled y now route y' set) : y'.status ≠ .cancelled := by
  cases h <;> simp [BingxTransfer.complete, BingxTransfer.settle]

theorem moves {set : Transaction → Transaction} (h : Settled y now route y' (some set))
    {t : Transaction} (ht : t.status = .paid) : t.Moves (set t) := by
  cases h with
  | completed => exact Transaction.moves_complete ht
  | failed => exact Transaction.moves_fail ht
  | escalated => exact Transaction.moves_escalate ht

end Settled

section Commit

variable {unicode : Unicode} {x : Txn signature} {s : Shared signature}

/-- The update of the transaction that goes with a settled transfer. -/
def Updates (x : Txn signature) (s : Shared signature) (y : BingxTransfer) (ws : List Write) :
    Option (Transaction → Transaction) → Prop
  | none => ws = []
  | some set => PaidUpdate x s y set ws

theorem Updates.no_transfer {x : Txn signature} {s : Shared signature} {y : BingxTransfer}
    {ws : List Write} {set : Option (Transaction → Transaction)} (h : Updates x s y ws set)
    (z : BingxTransfer) : .bingxTransfer z ∉ ws := by
  cases set with
  | none =>
    obtain rfl : ws = [] := h
    exact List.not_mem_nil
  | some set =>
    obtain ⟨q, -, -, t, -, ⟨-, -, rfl⟩ | ⟨-, rfl⟩⟩ := h <;> simp

/-- The writes of a commit to transactions, transfers and KYC records. -/
inductive Committed (unicode : Unicode) (x : Txn signature) (s : Shared signature) :
    Job → Result → List Write → Prop
  | nothing {j : Job} {v : Result} : x.calls = [] → Committed unicode x s j v []
  | created {settings : Settings} {r : DepositCreateRequest} {promoCodeId : Option String}
      {discount commission amountUsdt : Decimal} {id : String} {now : Timestamp}
      {t : Transaction} :
      calculateDepositAmounts r.amountRub settings discount = .ok (commission, amountUsdt) →
      StoredAs (newTransaction r id promoCodeId commission amountUsdt now) t →
      s.db.transactions.find? t.id = none → (∃ u, s.db.users.find? t.userId = some u) →
      x.calls = [] →
      Committed unicode x s (.createDeposit settings r)
        (.deposit ⟨id, .pending, r.amountRub, amountUsdt, commission, none⟩) [.transaction t]
  | rejected {p : SBPPaymentWebhook} {holdMinutes : ℤ} {v : Result} {t : Transaction}
      {now : Timestamp} :
      p.status = .failed → s.db.transactions.find? p.transactionId = some t →
      t.status = .pending → fits [(128, p.sbpPaymentId)] = true → x.calls = [] →
      Committed unicode x s (.sbpPaymentWebhook p holdMinutes) v
        [.transaction (t.reject p.sbpPaymentId now)]
  | paid {p : SBPPaymentWebhook} {holdMinutes : ℤ} {v : Result} {t : Transaction}
      {amountRub : Decimal} {payerName payerPhone id : String} {now now₁ now₂ : Timestamp} :
      p.status = .paid → s.db.transactions.find? p.transactionId = some t →
      t.status = .pending → p.amountRub = some amountRub →
      amountRub.SameValue t.amountRub.toDecimal → s.db.bingxTransfers.find? id = none →
      fits [(128, p.sbpPaymentId)] = true →
      fits [(255, some payerName), (64, some payerPhone)] = true →
      (∃ q ∈ x.snapshots, q.ext.now ≤ now₂) → now₂ ≤ s.ext.now → x.calls = [] →
      Committed unicode x s (.sbpPaymentWebhook p holdMinutes) v
        [.transaction (t.pay p.sbpPaymentId now),
          .kycRecord (kycRecord p payerName payerPhone t.amountRub now₁),
          .bingxTransfer (newTransfer t holdMinutes id now₂)]
  | disputed {p : SBPChargebackWebhook} {v : Result} {t : Transaction} {now : Timestamp}
      {q : Shared signature} :
      s.db.transactions.find? p.transactionId = some t → t.status ∈ chargebackEligibleStatuses →
      x.snapshots[2]? = some q → q.db.transactions.find? p.transactionId = some t →
      (∀ y ∈ unsent q.db p.transactionId, s.db.bingxTransfers.find? y.id = some y) →
      x.calls = [] →
      Committed unicode x s (.sbpChargebackWebhook p) v
        (.transaction (t.dispute now) :: cancelWrites q.db p.transactionId now)
  | recorded {settings : WorkerSettings} {y y' : BingxTransfer} {now : Timestamp} {a : Answer}
      {set : Option (Transaction → Transaction)} {ws : List Write} :
      Claimed x s settings y now → x.calls = [(y.request, a)] →
      Settled y now (answerRoute unicode a) y' set → Updates x s y ws set →
      Committed unicode x s (.processTransfer settings) (.processed true)
        (.bingxTransfer (claim now y) :: .bingxTransfer y' :: ws)
  | reset {y : BingxTransfer} {v : Result} : s.db.bingxTransfers.find? y.id = some y →
      y.status = .onHold → x.calls = [] →
      Committed unicode x s (.resetOnHold y.id) v [.bingxTransfer y.release]

theorem bound_releaseWrites (d : Database) (t : Transaction) :
    (releaseWrites d t).filter Write.bound = [] := by
  rw [List.filter_eq_nil_iff]
  intro w hw
  obtain ⟨p, rfl⟩ := mem_releaseWrites hw
  simp [Write.bound]

theorem bound_blacklistWrites (d : Database) (type : BlacklistType) (value reason id : String)
    (now : Timestamp) : (blacklistWrites d type value reason id now).filter Write.bound = [] := by
  unfold blacklistWrites
  split <;> simp [Write.bound]

theorem bound_cancelWrites (d : Database) (transactionId : String) (now : Timestamp) :
    (cancelWrites d transactionId now).filter Write.bound = cancelWrites d transactionId now := by
  rw [List.filter_eq_self]
  intro w hw
  obtain ⟨y, rfl⟩ := mem_cancelWrites hw
  rfl

theorem bound_chargebackWrites {p : SBPChargebackWebhook} {d : Dossier} {t : Transaction}
    {db db' q : Database} {id id' : String} {now now₁ now₂ now₃ : Timestamp} :
    (chargebackWrites p d db q (releaseWrites db' t) id id' now now₁ now₂ now₃).filter
      Write.bound =
        .transaction (d.transaction.dispute now) :: cancelWrites q p.transactionId now := by
  rw [chargebackWrites, ← cancelWrites]
  simp [List.filter_cons, Write.bound, bound_releaseWrites, bound_blacklistWrites,
    bound_cancelWrites]

/-- What a release, the blacklist and the cancelled transfers leave of other tables. -/
theorem filterMap_releaseWrites {α : Type} {f : Write → Option α} (d : Database) (t : Transaction)
    (hf : ∀ p, f (.promoCode p) = none) : (releaseWrites d t).filterMap f = [] := by
  rw [List.filterMap_eq_nil_iff]
  intro w hw
  obtain ⟨p, rfl⟩ := mem_releaseWrites hw
  exact hf p

theorem filterMap_blacklistWrites {α : Type} {f : Write → Option α} (d : Database)
    (type : BlacklistType) (value reason id : String) (now : Timestamp)
    (hf : ∀ e, f (.blacklist e) = none) :
    (blacklistWrites d type value reason id now).filterMap f = [] := by
  unfold blacklistWrites
  split <;> simp [hf]

theorem filterMap_cancelWrites {α : Type} {f : Write → Option α} (d : Database)
    (transactionId : String) (now : Timestamp) (hf : ∀ y, f (.bingxTransfer y) = none) :
    (cancelWrites d transactionId now).filterMap f = [] := by
  rw [List.filterMap_eq_nil_iff]
  intro w hw
  obtain ⟨y, rfl⟩ := mem_cancelWrites hw
  exact hf y

theorem filterMap_chargebackWrites {α : Type} {f : Write → Option α} {p : SBPChargebackWebhook}
    {d : Dossier} {t : Transaction} {db db' q : Database} {id id' : String}
    {now now₁ now₂ now₃ : Timestamp} (hy : ∀ y, f (.bingxTransfer y) = none)
    (hc : ∀ c, f (.promoCode c) = none) (he : ∀ e, f (.blacklist e) = none) :
    (chargebackWrites p d db q (releaseWrites db' t) id id' now now₁ now₂ now₃).filterMap f =
      [.transaction (d.transaction.dispute now), .fraudAlert (chargebackAlert d p.reason now),
        .audit (auditEntry .chargebackReceived (some d.transaction.userId) (some d.transaction.id)
          (chargebackDetails p (unsent q p.transactionId).length) none none none now₃)].filterMap
            f := by
  rw [chargebackWrites, ← cancelWrites]
  simp only [List.cons_append, List.filterMap_cons, List.filterMap_append,
    filterMap_cancelWrites _ _ _ hy, filterMap_releaseWrites _ _ hc,
    filterMap_blacklistWrites _ _ _ _ _ _ he, List.nil_append, List.append_nil]

/-- A chargeback removes no row. -/
theorem removes_chargebackWrites {p : SBPChargebackWebhook} {d : Dossier} {t : Transaction}
    {db db' q : Database} {id id' : String} {now now₁ now₂ now₃ : Timestamp} :
    ∀ w ∈ chargebackWrites p d db q (releaseWrites db' t) id id' now now₁ now₂ now₃,
      w.removes = false := by
  let f : Write → Option Unit := fun w => if w.removes then some () else none
  have hnone : (chargebackWrites p d db q (releaseWrites db' t) id id' now now₁ now₂
      now₃).filterMap f = [] := by
    rw [filterMap_chargebackWrites (fun _ => rfl) (fun _ => rfl) fun _ => rfl]
    rfl
  intro w hw
  have hf : f w = none := List.filterMap_eq_nil_iff.mp hnone w hw
  by_contra hremoves
  rw [Bool.not_eq_false] at hremoves
  simp only [f, hremoves, if_true] at hf
  cases hf

theorem committed_deposit {settings : Settings} {r : DepositCreateRequest} {v : Result}
    (h : DepositOutcome x s settings r v) (hcalls : x.calls = []) :
    Committed unicode x s (.createDeposit settings r) v (x.pending.filter Write.bound) := by
  cases h with
  | @created promoCodeId discount commission amountUsdt reserve alerts id now now' t hres hquote
      hstored hfresh huser halerts hpending =>
    have hreserve : reserve.filter Write.bound = [] := by
      cases hres <;> simp [Write.bound]
    have halerts : alerts.filter Write.bound = [] := by
      rcases halerts with rfl | ⟨_, _, _, _, rfl⟩ <;> simp [Write.bound]
    have hbound : x.pending.filter Write.bound = [.transaction t] := by
      rw [hpending]
      simp [List.filter_cons, Write.bound, hreserve, halerts]
    rw [hbound]
    exact .created hquote hstored hfresh huser hcalls

theorem committed_payment {p : SBPPaymentWebhook} {holdMinutes : ℤ} {v : Result}
    (h : PaymentOutcome x s p holdMinutes) (hcalls : x.calls = []) :
    Committed unicode x s (.sbpPaymentWebhook p holdMinutes) v (x.pending.filter Write.bound) := by
  cases h with
  | unmatched _ hpending => simpa [hpending, Write.bound] using .nothing hcalls
  | ignored _ _ hpending => simpa [hpending] using .nothing hcalls
  | mismatched _ _ _ _ _ hpending => simpa [hpending, Write.bound] using .nothing hcalls
  | @rejected t now now' release hp ht hst hfits hrel hpending =>
    obtain ⟨q, -, -, rfl, -⟩ := hrel
    have hbound : x.pending.filter Write.bound = [.transaction (t.reject p.sbpPaymentId now)] := by
      rw [hpending]
      simp [List.filter_cons, Write.bound, bound_releaseWrites]
    rw [hbound]
    exact .rejected hp ht hst hfits hcalls
  | paid hp ht hst ha hsame hnew hfits hpayer hread hclock hpending =>
    rw [hpending]
    simp only [List.filter_cons, Write.bound, List.filter_nil, if_true, Bool.false_eq_true,
      if_false]
    exact .paid hp ht hst ha hsame hnew hfits hpayer hread hclock hcalls

theorem committed_chargeback {p : SBPChargebackWebhook} {v : Result}
    (h : ChargebackOutcome x s p) (hcalls : x.calls = []) :
    Committed unicode x s (.sbpChargebackWebhook p) v (x.pending.filter Write.bound) := by
  cases h with
  | unmatched _ _ hpending => simpa [hpending, Write.bound] using .nothing hcalls
  | duplicate _ _ hpending => simpa [hpending] using .nothing hcalls
  | ineligible _ _ _ hpending => simpa [hpending, Write.bound] using .nothing hcalls
  | @charged d u q release id id' now now₁ now₂ now₃ ht hst hu hemail hq hrow hcancel hrel
      _ hpending =>
    obtain ⟨q', -, -, rfl, -⟩ := hrel
    rw [hpending, bound_chargebackWrites]
    exact .disputed ht hst hq hrow hcancel hcalls

/-- A guarded update writes the transaction or nothing. -/
theorem bound_paidUpdate {y : BingxTransfer} {set : Transaction → Transaction} {ws : List Write}
    (h : PaidUpdate x s y set ws) : ws.filter Write.bound = ws := by
  obtain ⟨q, -, -, t, -, ⟨-, -, rfl⟩ | ⟨-, rfl⟩⟩ := h <;> simp [Write.bound]

theorem committed_worker {settings : WorkerSettings} {v : Result}
    (h : WorkerOutcome x s unicode settings v) :
    Committed unicode x s (.processTransfer settings) v (x.pending.filter Write.bound) := by
  cases h with
  | idle hpending hcalls => simpa [hpending] using .nothing hcalls
  | @processed y now a ws hclaimed hcalls hrec hpending =>
    rw [hpending]
    generalize hroute : answerRoute unicode a = route at hrec
    have recorded {y' : BingxTransfer} {set : Option (Transaction → Transaction)}
        {vs : List Write} (hset : Settled y now route y' set) (hvs : Updates x s y vs set) :
        Committed unicode x s (.processTransfer settings) (.processed true)
          (.bingxTransfer (claim now y) :: .bingxTransfer y' :: vs) :=
      .recorded hclaimed hcalls (hroute ▸ hset) hvs
    cases hrec with
    | completed hfits _ hp =>
      simp only [List.cons_append, List.filter_cons, List.filter_append, Write.bound,
        transferAudit, bound_paidUpdate hp, List.filter_nil, List.append_nil, if_true,
        Bool.false_eq_true, if_false]
      exact recorded (.completed hfits) hp
    | held =>
      simp only [List.filter_cons, Write.bound, transferAudit, List.filter_nil, if_true,
        Bool.false_eq_true, if_false]
      exact recorded .held rfl
    | failed _ hp =>
      simp only [List.cons_append, List.filter_cons, List.filter_append, Write.bound,
        transferAudit, bound_paidUpdate hp, List.filter_nil, List.append_nil, if_true,
        Bool.false_eq_true, if_false]
      exact recorded .failed hp
    | retried _ hn =>
      simp only [List.filter_cons, Write.bound, List.filter_nil, if_true]
      exact recorded (.retried hn) rfl
    | escalated _ hn hp =>
      simp only [List.cons_append, List.filter_cons, List.filter_append, Write.bound,
        transferAudit, bound_paidUpdate hp, List.filter_nil, List.append_nil, if_true,
        Bool.false_eq_true, if_false]
      exact recorded (.escalated hn) hp

theorem committed_reset {transferId : String} {v : Result} (h : ResetOutcome x s transferId)
    (hcalls : x.calls = []) :
    Committed unicode x s (.resetOnHold transferId) v (x.pending.filter Write.bound) := by
  cases h with
  | ignored hpending => simpa [hpending] using .nothing hcalls
  | @reset y hy hst hpending =>
    obtain rfl := Table.key_of_find? hy
    simpa [hpending, Write.bound] using .reset hy hst hcalls

theorem committed_entry {r : BlacklistCreateRequest} {v : Result}
    (h : EntryOutcome x s unicode r v) (hcalls : x.calls = []) :
    Committed unicode x s (.addBlacklistEntry r) v (x.pending.filter Write.bound) := by
  cases h with
  | added hpending => simpa [hpending, Write.bound] using .nothing hcalls

theorem committed_manage {change : BlacklistChange} {v : Result} (h : ManageOutcome x s change)
    (hcalls : x.calls = []) :
    Committed unicode x s (.manageBlacklist change) v (x.pending.filter Write.bound) := by
  have hnone : x.pending.filter Write.bound = [] := by
    cases h <;> simp [*, Write.bound]
  rw [hnone]
  exact .nothing hcalls

theorem committed_edit {id : String} {form : PromoCodeForm} {v : Result}
    (h : EditOutcome x s id form) (hcalls : x.calls = []) :
    Committed unicode x s (.editPromoCode id form) v (x.pending.filter Write.bound) := by
  cases h with
  | ignored hpending => simpa [hpending] using .nothing hcalls
  | edited _ _ _ _ hpending => simpa [hpending, Write.bound] using .nothing hcalls

theorem committed_dossier {adminId transactionId : String} {v : Result}
    (h : DossierOutcome x adminId transactionId v) (hcalls : x.calls = []) :
    Committed unicode x s (.transactionDossier adminId transactionId) v
      (x.pending.filter Write.bound) := by
  cases h with
  | viewed hpending => simpa [hpending, Write.bound] using .nothing hcalls

/-- What a job that commits has written. -/
theorem Outcome.committed {j : Job} {v : Result} (h : Outcome unicode j v x s) :
    Committed unicode x s j v (x.pending.filter Write.bound) := by
  cases j with
  | createDeposit settings r => exact committed_deposit h.1 h.2
  | sbpPaymentWebhook p holdMinutes => exact committed_payment h.1 h.2
  | sbpChargebackWebhook p => exact committed_chargeback h.1 h.2
  | processTransfer settings => exact committed_worker h
  | resetOnHold transferId => exact committed_reset h.1 h.2
  | addBlacklistEntry r => exact committed_entry h.1 h.2
  | manageBlacklist change => exact committed_manage h.1 h.2
  | editPromoCode id form => exact committed_edit h.1 h.2
  | transactionDossier adminId transactionId => exact committed_dossier h.1 h.2

/-- The claim, the outcome and the guarded update of one transfer. -/
theorem lawful_settled {y y' : BingxTransfer} {now : Timestamp} {route : Route}
    {set : Option (Transaction → Transaction)} {ws : List Write}
    (hy : s.db.bingxTransfers.find? y.id = some y) (hset : Settled y now route y' set)
    (hws : Updates x s y ws set) :
    Lawful s.db (.bingxTransfer (claim now y) :: .bingxTransfer y' :: ws) := by
  have htransfer (z' : BingxTransfer) (hz : z' = claim now y ∨ z' = y') :
      ∃ z, s.db.bingxTransfers.find? z'.id = some z ∧ z.SamePayout z' := by
    rcases hz with rfl | rfl
    · exact ⟨y, hy, y.samePayout_claim now⟩
    · exact ⟨y, by rw [hset.samePayout.id, hy], hset.samePayout⟩
  have honly : ws = [] →
      Lawful s.db (.bingxTransfer (claim now y) :: .bingxTransfer y' :: ws) := by
    rintro rfl
    exact .update (by simp) (by simp) (fun z' hz => htransfer z' (by simpa using hz)) (by simp)
  cases set with
  | none => exact honly hws
  | some set =>
    obtain ⟨q, -, -, t, -, ⟨hst, ht, rfl⟩ | ⟨-, hnil⟩⟩ := hws
    · have hmoves := hset.moves hst
      have hid : (set t).id = y.transactionId := hmoves.quote.id.trans (Table.key_of_find? ht)
      refine .update ?_ (by simp) (fun z' hz => htransfer z' (by simpa using hz)) (by simp)
      intro t' ht'
      obtain rfl : t' = set t := by simpa using ht'
      exact ⟨t, by rw [hid, ht], hmoves⟩
    · exact honly hnil

/-- What a job commits is lawful. -/
theorem Committed.lawful {j : Job} {v : Result} {ws : List Write} (hs : Inv s)
    (h : Committed unicode x s j v ws) : Lawful s.db ws := by
  cases h with
  | nothing => exact .nil
  | created hquote hstored hfresh huser =>
    exact ⟨by simpa using .inr ⟨hfresh, hstored.status, huser⟩, by simp, by simp, by simp⟩
  | rejected hp ht hst =>
    have hid := Table.key_of_find? ht
    exact .transaction_update (hid ▸ ht) (Transaction.moves_reject hst)
  | @paid p holdMinutes _ t amountRub payerName payerPhone id now now₁ now₂ hp ht hst ha hsame
      hnew =>
    have hid := Table.key_of_find? ht
    have hbare := (hs.sound.bare ht hst).2
    refine ⟨?_, by simp, ?_, ?_⟩
    · intro t' ht'
      obtain rfl : t' = t.pay p.sbpPaymentId now := by simpa using ht'
      exact .inl ⟨t, hid ▸ ht, Transaction.moves_pay hst⟩
    · intro y' hy'
      obtain rfl : y' = newTransfer t holdMinutes id now₂ := by simpa using hy'
      exact .inr ⟨hnew, by simpa [newTransfer, hid] using hbare, by simp,
        t.pay p.sbpPaymentId now, List.mem_cons_self, rfl, by simp [Transaction.pay], rfl, rfl, rfl⟩
    · intro k hk
      obtain rfl : k = kycRecord p payerName payerPhone t.amountRub now₁ := by simpa using hk
      exact ⟨t.pay p.sbpPaymentId now, List.mem_cons_self, hid, by simp [Transaction.pay], rfl⟩
  | @disputed p _ t now q ht hst hq hrow hcancel =>
    have hid := Table.key_of_find? ht
    have honly (t' : Transaction)
        (h : .transaction t' ∈ .transaction (t.dispute now) ::
          cancelWrites q.db p.transactionId now) : t' = t.dispute now := by
      rcases List.mem_cons.mp h with he | hm
      · exact Write.transaction.inj he
      · obtain ⟨y, hy⟩ := mem_cancelWrites hm
        cases hy
    refine .update ?_ (fun t' t'' h' h'' => (honly t' h').trans (honly t'' h'').symm) ?_ ?_
    · intro t' ht'
      obtain rfl := honly t' ht'
      exact ⟨t, hid ▸ ht, Transaction.moves_dispute hst⟩
    · intro y' hy'
      obtain ⟨y, hy, rfl⟩ : ∃ y ∈ unsent q.db p.transactionId, y.cancel now = y' := by
        simpa [cancelWrites] using hy'
      exact ⟨y, hcancel y hy, y.samePayout_cancel now⟩
    · simp [cancelWrites]
  | recorded hclaimed _ hset hws => exact lawful_settled hclaimed.row hset hws
  | reset hy => exact .transfer_update hy (BingxTransfer.samePayout_release _)

/-- What a job that commits has claimed is due. -/
theorem Committed.timely {j : Job} {v : Result} {ws : List Write}
    (h : Committed unicode x s j v ws) : Timely s.ext.now ws := by
  intro z hz hst
  cases h with
  | nothing => cases hz
  | created | rejected => simp at hz
  | paid =>
    obtain rfl : z = newTransfer _ _ _ _ := by simpa using hz
    cases hst
  | disputed =>
    rcases List.mem_cons.mp hz with hz | hz
    · cases hz
    · obtain ⟨y, -, hy⟩ := List.mem_map.mp hz
      obtain rfl := Write.bingxTransfer.inj hy
      cases hst
  | @recorded settings y y' now a set ws hclaimed _ hset hws =>
    have hsame : y.SamePayout z := by
      rcases List.mem_cons.mp hz with hz | hz
      · obtain rfl := Write.bingxTransfer.inj hz
        exact y.samePayout_claim now
      rcases List.mem_cons.mp hz with hz | hz
      · obtain rfl := Write.bingxTransfer.inj hz
        exact hset.samePayout
      · exact absurd hz (hws.no_transfer z)
    rw [hsame.scheduledAt]
    exact hclaimed.due
  | reset =>
    obtain rfl : z = BingxTransfer.release _ := by simpa using hz
    cases hst

end Commit

/-! ## A worker that commits its statements one by one -/

section Autocommit

variable {unicode : Unicode} {j : Job} {s : Shared signature} {d : Database}

/-- The writes of a worker's statement: lawful, only to transactions that are there and to
transfers that are there and due if they are set to processing, and not to the blacklist. -/
structure Updating (d : Database) (now : Timestamp) (ws : List Write) : Prop where
  lawful : Lawful d ws
  timely : Timely now ws
  kept : ∀ t, .transaction t ∈ ws → ∃ u, d.transactions.find? t.id = some u
  stored : ∀ x, .bingxTransfer x ∈ ws → ∃ y, d.bingxTransfers.find? x.id = some y
  unlisted : ∀ w ∈ ws, ∀ key, w.target ≠ some (.blacklist key)

/-- No transfer is written. -/
theorem Updating.of_lawful {now : Timestamp} {ws : List Write} (h : Lawful d ws)
    (hkept : ∀ t, .transaction t ∈ ws → ∃ u, d.transactions.find? t.id = some u)
    (hno : ∀ x, .bingxTransfer x ∉ ws) (hun : ∀ w ∈ ws, ∀ key, w.target ≠ some (.blacklist key)) :
    Updating d now ws :=
  ⟨h, fun x hx => absurd hx (hno x), hkept, fun x hx => absurd hx (hno x), hun⟩

theorem Updating.nil {now : Timestamp} : Updating d now [] :=
  .of_lawful .nil (by simp) (by simp) (by simp)

/-- One transfer is updated. -/
theorem Updating.transfer {now : Timestamp} {y y' : BingxTransfer}
    (hy : d.bingxTransfers.find? y.id = some y) (hs : y.SamePayout y')
    (hdue : y'.status = .processing → y.scheduledAt ≤ now) :
    Updating d now [.bingxTransfer y'] := by
  have hy' : d.bingxTransfers.find? y'.id = some y := by rw [hs.id, hy]
  refine ⟨.transfer_update hy' hs, fun x hx hst => ?_, by simp, fun x hx => ?_, by simp⟩ <;>
    obtain rfl : x = y' := by simpa using hx
  · rw [hs.scheduledAt]
    exact hdue hst
  · exact ⟨y, hy'⟩

/-- A statement with such writes may commit by itself. -/
theorem Updating.link (unicode : Unicode) {ws : List Write} (h : Updating s.db s.ext.now ws)
    (hs : Inv s) :
    (payments unicode).Link s ⟨replay ws s.db, s.ext⟩ ∧ Single s ⟨replay ws s.db, s.ext⟩ := by
  obtain ⟨hg, hi⟩ := h.lawful.inv h.timely hs
  refine ⟨⟨hs, hg, hi⟩, fun id hnone => ?_, fun id hnone => ?_,
    fun key => Database.blacklist_replay fun w hw => h.unlisted w hw key⟩
  · cases hf : (replay ws s.db).transactions.find? id with
    | none => rfl
    | some t =>
      rcases Database.transaction_replay hf with ⟨hw, rfl⟩ | ⟨hold, -⟩
      · obtain ⟨u, hu⟩ := h.kept t hw
        rw [hnone] at hu
        cases hu
      · rw [hnone] at hold
        cases hold
  · cases hf : (replay ws s.db).bingxTransfers.find? id with
    | none => rfl
    | some x =>
      rcases Database.transfer_replay hf with ⟨hw, rfl⟩ | ⟨hold, -⟩
      · obtain ⟨y, hy⟩ := h.stored x hw
        rw [hnone] at hy
        cases hy
      · rw [hnone] at hold
        cases hold

theorem updating_updateTransfer {id : String} {texts : List (ℕ × Option String)}
    {response : Option Json} {guard : BingxTransfer → Bool} {set : BingxTransfer → BingxTransfer}
    {locked : Row → LockMode → Bool} {eff : Effect Write Row Unit} {now : Timestamp}
    (hset : ∀ x : BingxTransfer, x.SamePayout (set x)) (hst : ∀ x, (set x).status ≠ .processing)
    (h : updateTransfer id texts response guard set locked d = .ok eff) :
    Updating d now eff.writes := by
  cases hf : d.bingxTransfers.find? id with
  | none => rw [updateTransfer_none hf h]; exact .nil
  | some x =>
    rw [updateTransfer_ok hf h]
    dsimp only
    split
    · refine .transfer ?_ (hset x) fun he => absurd he (hst x)
      rw [Table.key_of_find? hf, hf]
    · exact .nil

theorem updating_updateTransaction {id : String} {texts : List (ℕ × Option String)}
    {guard : Transaction → Bool} {set : Transaction → Transaction}
    {locked : Row → LockMode → Bool} {eff : Effect Write Row Unit}
    {now : Timestamp} (hset : ∀ t : Transaction, guard t = true → t.Moves (set t))
    (h : updateTransaction id texts guard set locked d = .ok eff) :
    Updating d now eff.writes := by
  cases hf : d.transactions.find? id with
  | none => rw [updateTransaction_none hf h]; exact .nil
  | some t =>
    rw [updateTransaction_ok hf h]
    dsimp only
    split
    · next hg =>
      have hfind : d.transactions.find? (set t).id = some t := by
        rw [(hset t hg).quote.id, Table.key_of_find? hf, hf]
      refine .of_lawful (.transaction_update hfind (hset t hg)) (fun u hu => ?_) (by simp) (by simp)
      obtain rfl : u = set t := by simpa using hu
      exact ⟨t, hfind⟩
    · exact .nil

/-- A statement that commits by itself. -/
theorem wpAuto_exec {β : Type} {q : Statement β} {Q : β → Shared signature → Prop}
    (hq : ∀ d now blocked eff, q blocked d = .ok eff → Updating d now eff.writes)
    (h : ∀ s' v, Inv s' → Q v s') :
    (payments unicode).WpAuto (bank unicode) j (exec q) Q s := by
  intro s₁ h₁ blocked eff he
  have hlink := (hq _ _ blocked eff he).link unicode h₁.inv
  exact ⟨hlink, h _ _ hlink.1.inv'⟩

theorem wpAuto_now {α : Type} {f : ℤ → Handler α} {Q : α → Shared signature → Prop}
    (h : ∀ s' now, Inv s' → (payments unicode).WpAuto (bank unicode) j (f now) Q s') :
    (payments unicode).WpAuto (bank unicode) j (Prog.now >>= f) Q s :=
  fun s' hl => h s' _ hl.inv

theorem wpAuto_writeAuditLog {eventType : EventType} {userId transactionId : Option String}
    {payload : Details} {ipAddress deviceFingerprint userAgent : Option String}
    {Q : Unit → Shared signature → Prop} (h : ∀ s', Inv s' → Q () s') :
    (payments unicode).WpAuto (bank unicode) j (writeAuditLog eventType userId transactionId
      payload ipAddress deviceFingerprint userAgent) Q s := by
  refine wpAuto_now fun s₁ now _ => wpAuto_exec (fun d _ blocked eff he => ?_)
    fun s' _ hi => h s' hi
  rw [insertAuditLog_ok he]
  exact .of_lawful (.of_bound (by simpa [Write.bound] using .nil)) (by simp) (by simp) (by simp)

/-- Whatever the answer was, each statement that records it is lawful. -/
theorem wpAuto_follow {transfer : ClaimedTransfer} {route : Route}
    {Q : Unit → Shared signature → Prop} (h : ∀ s', Inv s' → Q () s') :
    (payments unicode).WpAuto (bank unicode) j (follow transfer route) Q s := by
  have hpaid {texts : List (ℕ × Option String)} {set : Transaction → Transaction}
      {eventType : EventType} {payload : Details} {s : Shared signature}
      (hset : ∀ t : Transaction, t.status = .paid → t.Moves (set t)) :
      (payments unicode).WpAuto (bank unicode) j
        (updatePaid transfer.transactionId texts set >>= fun _ =>
          writeAuditLog eventType none (some transfer.transactionId) payload none none none) Q s :=
    Contract.WpAuto.bind (wpAuto_exec
      (fun _ _ _ _ he => updating_updateTransaction (fun t ht => hset t (by simpa using ht)) he)
      fun _ _ _ => wpAuto_writeAuditLog h)
  cases route with
  | complete bingxTransferId response =>
    exact wpAuto_now fun _ now _ => Contract.WpAuto.bind (wpAuto_exec
      (fun _ _ _ _ he => updating_updateTransfer (fun y => y.samePayout_complete now _ _)
        (by simp [BingxTransfer.complete]) he)
      fun _ _ _ => hpaid fun _ => Transaction.moves_complete)
  | hold payload =>
    refine wpAuto_now fun _ now _ => Contract.WpAuto.bind (wpAuto_exec
      (fun _ _ _ _ he => updating_updateTransfer (fun y => y.samePayout_settle now _ _)
        (by simp [BingxTransfer.settle]) he)
      fun _ _ _ => Contract.WpAuto.bind (wpAuto_exec (fun _ _ _ _ he => ?_)
        fun _ _ _ => wpAuto_writeAuditLog h))
    rw [insertFraudAlert_ok he]
    exact .of_lawful (.of_bound (by simpa [Write.bound] using .nil)) (by simp) (by simp) (by simp)
  | fail payload =>
    exact wpAuto_now fun _ now _ => Contract.WpAuto.bind (wpAuto_exec
      (fun _ _ _ _ he => updating_updateTransfer (fun y => y.samePayout_settle now _ _)
        (by simp [BingxTransfer.settle]) he)
      fun _ _ _ => hpaid fun _ => Transaction.moves_fail)
  | retry payload =>
    simp only [follow, retryOrEscalateTransfer]
    refine wpAuto_now fun _ now _ => Contract.WpAuto.bind (wpAuto_exec
      (fun _ _ _ _ he => updating_updateTransfer (fun y => y.samePayout_settle now _ _)
        (fun y => by simp only [BingxTransfer.settle]; split <;> simp) he)
      fun s' _ hi => ?_)
    split
    · exact h s' hi
    · exact wpAuto_now fun _ now' _ => hpaid fun _ => Transaction.moves_escalate
  | uncaught => exact trivial

theorem meets_processTransfer_autocommit {settings : WorkerSettings}
    (ha : settings.autocommit = true) :
    (payments unicode).OkAuto (bank unicode) (.processTransfer settings)
      (program unicode (.processTransfer settings)) s := by
  refine Contract.WpAuto.bind (Contract.WpAuto.bind (fun s₁ _ s₂ h₂ blocked eff hq => ?_))
  rcases updateNextTransfer_ok hq with rfl | ⟨y, hy, hclaim, rfl⟩
  · exact ⟨Updating.nil.link unicode h₂.inv, trivial⟩
  have hfind := Table.find?_of_mem hy
  have hdue := due_of_claimable h₂.inv hy (later_clock h₂) hclaim
  have hlink := (Updating.transfer hfind (y.samePayout_claim s₁.ext.now) fun _ => hdue).link
    unicode h₂.inv
  have hg : Guar s₂ ⟨_, s₂.ext⟩ := hlink.1.guar
  refine ⟨hlink, Contract.WpAuto.bind ?_⟩
  simp only [createInternalTransfer]
  split
  · exact trivial
  intro s₃ h₃
  -- the transfer is still there, with what it pays
  obtain ⟨y₁, hy₁, hs₁⟩ := hg.db.transfer y.id y hfind
  obtain ⟨y₂, hy₂, hs₂⟩ := (later_persists h₃).transfer y.id y₁ hy₁
  have hsame := hs₁.trans hs₂
  have hmem := Table.mem_of_find? hy₂
  obtain ⟨hg', hi'⟩ := inv_send h₃.inv ⟨y₂, hmem, hsame.request⟩
  have hclock := later_clock h₃
  have hdue : y₂.scheduledAt ≤ s₃.ext.now := by
    rw [hsame.scheduledAt]
    exact hdue.trans hclock
  refine ⟨⟨y₂, hmem, hsame.request, hdue, fun htogether => ?_⟩, ⟨h₃.inv, hg', hi'⟩, fun a => ?_⟩
  · rw [Job.Together, Job.autocommit, ha] at htogether
    cases htogether
  change Contract.WpAuto _ _ _
    (recordOutcome unicode (returning (claim s₁.ext.now y)) (readAnswer unicode a) >>=
    fun _ => pure true) _ _
  refine Contract.WpAuto.bind ?_
  rw [recordOutcome_eq]
  exact wpAuto_follow fun _ _ => trivial

end Autocommit

/-- Every job's code meets the contract, in any company. -/
theorem payments_valid (unicode : Unicode) :
    (payments unicode).Valid (bank unicode) fun _ => True where
  program j _ s hs := by
    cases j with
    | createDeposit settings r => exact meets_createDeposit
    | sbpPaymentWebhook p holdMinutes => exact meets_sbpPaymentWebhook
    | sbpChargebackWebhook p => exact meets_sbpChargebackWebhook
    | resetOnHold transferId => exact meets_resetOnHold
    | processTransfer settings =>
      unfold Contract.Meets
      split
      · next ha => exact ⟨meets_processTransfer_autocommit ha, rfl, rfl⟩
      · exact meets_processTransfer
    | addBlacklistEntry r => exact meets_addBlacklistEntry
    | manageBlacklist change => exact meets_manageBlacklist
    | editPromoCode id form => exact meets_editPromoCode
    | transactionDossier adminId transactionId => exact meets_transactionDossier
  commit j v x s _ _ hs _ h := by
    refine (Lawful.of_bound (h.committed.lawful hs)).inv (fun y hy => ?_) hs
    exact h.committed.timely y (List.mem_filter.mpr ⟨hy, rfl⟩)
  event _ _ _ hs he := inv_event hs he

end MoneyWay
