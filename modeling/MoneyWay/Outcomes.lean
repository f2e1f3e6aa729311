import MoneyWay.Invariant

/-!
# What each job commits

For every job, the writes it can have made when it commits and what is known then
about the rows it has locked and about the states its statements have read. With the
locks a job asks for and the requests it sends this is the contract `payments` that
every session meets.
-/

set_option autoImplicit false

namespace MoneyWay

open Keyed ReadCommitted Python Sql

/-- Where an answer of BingX leads. -/
inductive Route where
  | complete (bingxTransferId : Option String) (response : Json)
  | hold (payload : Json)
  | fail (payload : Json)
  | retry (payload : Json)
  | uncaught

/-- The branches of the worker on an answer. -/
def route (unicode : Unicode) : Except CallError (List (String × Json)) → Route
  | .ok response => .complete (extractTransferId unicode response) (.obj response)
  | .error (.connection message) => .retry (.obj [("error", .str message)])
  | .error .recursion => .uncaught
  | .error (.api e) =>
    let payload := (e.payload.dict?).getD [("code", e.code), ("msg", .str e.msg)]
    if e.isDuplicate unicode then .complete (extractTransferId unicode payload) (.obj payload)
    else if e.isInsufficientBalance unicode then .hold (.obj payload)
    else if e.isRecipientNotFound unicode then .fail (.obj payload)
    else .retry (.obj payload)

/-- What a branch records. -/
def follow (transfer : ClaimedTransfer) : Route → Handler Unit
  | .complete bingxTransferId response => markTransferCompleted transfer bingxTransferId response
  | .hold payload => holdTransferLowBalance transfer payload
  | .fail payload => markTransferTerminalFailed transfer payload
  | .retry payload => retryOrEscalateTransfer transfer payload
  | .uncaught => raise .recursion

theorem recordOutcome_eq (unicode : Unicode) (transfer : ClaimedTransfer)
    (r : Except CallError (List (String × Json))) :
    recordOutcome unicode transfer r = follow transfer (route unicode r) := by
  rcases r with (_ | e | _) | _
  · rfl
  · simp only [recordOutcome, handleApiError, route]
    split
    · rfl
    · split
      · rfl
      · split <;> rfl
  · rfl
  · rfl

/-- The route of an answer. -/
def answerRoute (unicode : Unicode) (a : Answer) : Route := route unicode (readAnswer unicode a)

/-- What the route writes fits into its columns. -/
def Route.Recordable : Route → Prop
  | .complete bingxTransferId response =>
    fits [(128, bingxTransferId)] = true ∧ response.storable = true
  | .hold payload | .fail payload | .retry payload => payload.storable = true
  | .uncaught => False

instance : (route : Route) → Decidable route.Recordable
  | .complete .. => inferInstanceAs (Decidable (_ ∧ _))
  | .hold _ | .fail _ | .retry _ => inferInstanceAs (Decidable (_ = true))
  | .uncaught => inferInstanceAs (Decidable False)

section Outcomes

variable (x : Txn signature) (s : Shared signature)

/-- The promo code part of a deposit: the id, the discount and the write. -/
inductive Reserved (promoCode : Option String) :
    Option String → Decimal → List Write → Prop
  | none : promoCode = none → Reserved promoCode none (.ofNat 0) []
  | code (p : PromoCode) : promoCode = some p.code → s.db.promoCodes.find? p.id = some p →
      p.isActive = true → (∀ m ∈ p.maxUses, (p.usedCount : ℤ) < m) →
      Reserved promoCode (some p.id) p.discountPercent.toDecimal
        [.promoCode { p with usedCount := p.usedCount + 1 }]

/-- A deposit that commits has inserted its transaction. -/
inductive DepositOutcome (settings : Settings) (r : DepositCreateRequest) : Result → Prop
  | created {promoCodeId : Option String} {discount commission amountUsdt : Decimal}
      {reserve alerts : List Write} {id : String} {now now' : Timestamp} {t : Transaction} :
      Reserved s r.promoCode promoCodeId discount reserve →
      calculateDepositAmounts r.amountRub settings discount = .ok (commission, amountUsdt) →
      StoredAs (newTransaction r id promoCodeId commission amountUsdt now) t →
      s.db.transactions.find? t.id = none →
      (∃ u, s.db.users.find? t.userId = some u) →
      (alerts = [] ∨ ∃ other fingerprint at', r.deviceFingerprint = some fingerprint ∧
        alerts = [.fraudAlert (deviceReuseAlert r.user id fingerprint other at')]) →
      x.pending = reserve ++ .transaction t :: alerts ++
        [.audit (auditEntry .depositCreated (some r.user.id) (some id)
          (depositDetails r promoCodeId) (storedIp r) r.deviceFingerprint r.userAgent now')] →
      DepositOutcome settings r
        (.deposit ⟨id, .pending, r.amountRub, amountUsdt, commission, none⟩)

/-- The release a session has made is the one for the promo codes now. -/
def Released (t : Transaction) (ws : List Write) : Prop :=
  ∃ q ∈ x.snapshots, q.db.transactions.find? t.id = some t ∧ ws = releaseWrites q.db t ∧
    ∀ p, .promoCode p ∈ ws → s.db.promoCodes.find? p.id = q.db.promoCodes.find? p.id

inductive PaymentOutcome (p : SBPPaymentWebhook) (holdMinutes : ℤ) : Prop
  | unmatched {now : Timestamp} :
      (∃ q ∈ x.snapshots, q.db.transactions.find? p.transactionId = none) →
      x.pending = [.audit (auditEntry .sbpPaymentUnmatched none none
        [("requested_transaction_id", .text p.transactionId)] none none none now)] →
      PaymentOutcome p holdMinutes
  | ignored {t : Transaction} : s.db.transactions.find? p.transactionId = some t →
      t.status ≠ .pending → x.pending = [] → PaymentOutcome p holdMinutes
  | rejected {t : Transaction} {now now' : Timestamp} {release : List Write} :
      p.status = .failed → s.db.transactions.find? p.transactionId = some t →
      t.status = .pending → fits [(128, p.sbpPaymentId)] = true → Released x s t release →
      x.pending = .transaction (t.reject p.sbpPaymentId now) :: release ++
        [.audit (auditEntry .sbpPaymentFailed none (some p.transactionId) p.modelDump
          none none none now')] →
      PaymentOutcome p holdMinutes
  | mismatched {t : Transaction} {amountRub : Decimal} {now now' : Timestamp} :
      p.status = .paid → s.db.transactions.find? p.transactionId = some t →
      t.status = .pending → p.amountRub = some amountRub →
      ¬ amountRub.SameValue t.amountRub.toDecimal →
      x.pending = [.fraudAlert (amountMismatchAlert t amountRub now),
        .audit (auditEntry .sbpPaymentAmountMismatch (some t.userId) (some t.id)
          (mismatchDetails t amountRub) none none none now')] →
      PaymentOutcome p holdMinutes
  | paid {t : Transaction} {amountRub : Decimal} {payerName payerPhone id : String}
      {now now₁ now₂ now₃ : Timestamp} :
      p.status = .paid → s.db.transactions.find? p.transactionId = some t →
      t.status = .pending → p.amountRub = some amountRub →
      amountRub.SameValue t.amountRub.toDecimal → s.db.bingxTransfers.find? id = none →
      fits [(128, p.sbpPaymentId)] = true →
      fits [(255, some payerName), (64, some payerPhone)] = true →
      (∃ q ∈ x.snapshots, q.ext.now ≤ now₂) → now₂ ≤ s.ext.now →
      x.pending = [.transaction (t.pay p.sbpPaymentId now),
        .kycRecord (kycRecord p payerName payerPhone t.amountRub now₁),
        .bingxTransfer (newTransfer t holdMinutes id now₂),
        .notify notifyChannelBingxTransfers,
        .audit (auditEntry .sbpPaymentPaid (some t.userId) (some p.transactionId) p.modelDump
          none none none now₃)] →
      PaymentOutcome p holdMinutes

/-- The writes of `blacklistChargeback`. -/
def blacklistWrites (d : Database) (type : BlacklistType) (value reason id : String)
    (now : Timestamp) : List Write :=
  if value = "" then [] else [.blacklist (blacklisted d (chargebackEntry type value reason id now))]

/-- The transfers a chargeback cancels. -/
def unsent (d : Database) (transactionId : String) : List BingxTransfer :=
  d.bingxTransfers.rows.filter (BingxTransfer.unsentOf transactionId)

/-- The writes of an eligible chargeback. -/
def chargebackWrites (p : SBPChargebackWebhook) (d : Dossier) (db q : Database)
    (release : List Write) (id id' : String) (now now₁ now₂ now₃ : Timestamp) : List Write :=
  .transaction (d.transaction.dispute now) ::
    (unsent q p.transactionId).map (fun y => .bingxTransfer (y.cancel now)) ++ release ++
    blacklistWrites db .email d.email p.reason id now₁ ++
    blacklistWrites db .uid d.transaction.bingxUid p.reason id' now₂ ++
    [.fraudAlert (chargebackAlert d p.reason now),
      .audit (auditEntry .chargebackReceived (some d.transaction.userId) (some d.transaction.id)
        (chargebackDetails p (unsent q p.transactionId).length) none none none now₃)]

/-- The lookup is the first statement of a chargeback and the `UPDATE` of the transfers is
the third. -/
inductive ChargebackOutcome (p : SBPChargebackWebhook) : Prop
  | unmatched {q : Shared signature} {now : Timestamp} :
      x.snapshots[0]? = some q → q.db.transactions.find? p.transactionId = none →
      x.pending = [.audit (auditEntry .chargebackUnmatched none none
        [("requested_transaction_id", .text p.transactionId), ("reason", .text p.reason)]
        none none none now)] →
      ChargebackOutcome p
  | duplicate {t : Transaction} : s.db.transactions.find? p.transactionId = some t →
      t.status = .chargeback → x.pending = [] → ChargebackOutcome p
  | ineligible {t : Transaction} {now : Timestamp} :
      s.db.transactions.find? p.transactionId = some t → t.status ≠ .chargeback →
      t.status ∉ chargebackEligibleStatuses →
      x.pending = [.audit (auditEntry .chargebackIneligible (some t.userId) (some t.id)
        [("status", .text t.status.text), ("reason", .text p.reason)] none none none now)] →
      ChargebackOutcome p
  | charged {d : Dossier} {u : User} {q : Shared signature} {release : List Write}
      {id id' : String} {now now₁ now₂ now₃ : Timestamp} :
      s.db.transactions.find? p.transactionId = some d.transaction →
      d.transaction.status ∈ chargebackEligibleStatuses →
      s.db.users.find? d.transaction.userId = some u → d.email = u.email →
      x.snapshots[2]? = some q → q.db.transactions.find? p.transactionId = some d.transaction →
      (∀ y ∈ unsent q.db p.transactionId, s.db.bingxTransfers.find? y.id = some y) →
      Released x s d.transaction release → storableText p.reason = true →
      x.pending = chargebackWrites p d s.db q.db release id id' now now₁ now₂ now₃ →
      ChargebackOutcome p

/-- The guarded update of the worker: written for a transaction that is paid, and none
for another. Meanwhile the claimed transfer is still as it was. -/
def PaidUpdate (y : BingxTransfer) (set : Transaction → Transaction) (ws : List Write) : Prop :=
  ∃ q ∈ x.snapshots, q.db.bingxTransfers.find? y.id = some y ∧
    ∃ t, q.db.transactions.find? y.transactionId = some t ∧
      (t.status = .paid ∧ s.db.transactions.find? y.transactionId = some t ∧
          ws = [.transaction (set t)] ∨
        t.status ≠ .paid ∧ ws = [])

/-- What is known of a claimed transfer `y`. -/
structure Claimed (settings : WorkerSettings) (y : BingxTransfer) (now : Timestamp) : Prop where
  row : s.db.bingxTransfers.find? y.id = some y
  due : y.scheduledAt ≤ s.ext.now
  claimed : ∃ q ∈ x.snapshots, q.db.bingxTransfers.find? y.id = some y ∧
    claimable now
      (if settings.staleSeconds > 0 then some (now - seconds settings.staleSeconds) else none)
      (now - seconds settings.retryBackoffSeconds) q.db y = true

def transferAudit (eventType : EventType) (y : BingxTransfer) (payload : Details)
    (now : Timestamp) : Write :=
  .audit (auditEntry eventType none (some y.transactionId) payload none none none now)

/-- What a worker has recorded for a claimed transfer, by the route of the answer. -/
inductive Recorded (y : BingxTransfer) (now : Timestamp) : Route → List Write → Prop
  | completed {bingxTransferId : Option String} {response : Json} {now₁ now₂ : Timestamp}
      {ws : List Write} : fits [(128, bingxTransferId)] = true → response.storable = true →
      PaidUpdate x s y (Transaction.complete bingxTransferId now₁) ws →
      Recorded y now (.complete bingxTransferId response)
        (.bingxTransfer ((claim now y).complete bingxTransferId response now₁) :: ws ++
          [transferAudit .transferCompleted y [("bingx_transfer_id", .ofText? bingxTransferId)]
            now₂])
  | held {payload : Json} {now₁ now₂ : Timestamp} : payload.storable = true →
      Recorded y now (.hold payload)
        [.bingxTransfer ((claim now y).settle .onHold payload now₁),
          .fraudAlert (lowBalanceAlert (returning (claim now y)) now₁),
          transferAudit .transferOnHold y [("reason", .text "low_balance")] now₂]
  | failed {payload : Json} {now₁ now₂ : Timestamp} {ws : List Write} : payload.storable = true →
      PaidUpdate x s y (Transaction.fail now₁) ws →
      Recorded y now (.fail payload)
        (.bingxTransfer ((claim now y).settle .failed payload now₁) :: ws ++
          [transferAudit .transferFailed y [("recipient_uid", .text y.recipientUid)] now₂])
  | retried {payload : Json} {now₁ : Timestamp} : payload.storable = true →
      y.attemptNumber + 1 < maxTransferAttempts →
      Recorded y now (.retry payload)
        [.bingxTransfer ((claim now y).settle .pending payload now₁)]
  | escalated {payload : Json} {now₁ now₂ now₃ : Timestamp} {ws : List Write} :
      payload.storable = true → maxTransferAttempts ≤ y.attemptNumber + 1 →
      PaidUpdate x s y (Transaction.escalate now₂) ws →
      Recorded y now (.retry payload)
        (.bingxTransfer ((claim now y).settle .error payload now₁) :: ws ++
          [transferAudit .transferError y [("attempt_number", .count (y.attemptNumber + 1))]
            now₃])

inductive WorkerOutcome (unicode : Unicode) (settings : WorkerSettings) : Result → Prop
  | idle : x.pending = [] → x.calls = [] → WorkerOutcome unicode settings (.processed false)
  | processed {y : BingxTransfer} {now : Timestamp} {a : Answer} {ws : List Write} :
      Claimed x s settings y now → x.calls = [(y.request, a)] →
      Recorded x s y now (answerRoute unicode a) ws →
      x.pending = .bingxTransfer (claim now y) :: ws →
      WorkerOutcome unicode settings (.processed true)

inductive ResetOutcome (transferId : String) : Prop
  | ignored : x.pending = [] → ResetOutcome transferId
  | reset {y : BingxTransfer} : s.db.bingxTransfers.find? transferId = some y →
      y.status = .onHold → x.pending = [.bingxTransfer y.release] → ResetOutcome transferId

inductive EntryOutcome (unicode : Unicode) (r : BlacklistCreateRequest) : Result → Prop
  | added {id : String} {now : Timestamp} :
      x.pending = [.blacklist (blacklisted s.db (blacklistEntry unicode r id now))] →
      EntryOutcome unicode r (.added id)

inductive ManageOutcome : BlacklistChange → Prop
  | created {id : String} {form : BlacklistForm} :
      s.db.blacklist.find? (form.entry id).key = none → x.pending = [.blacklist (form.entry id)] →
      ManageOutcome (.create id form)
  | ignored {id : String} {form : BlacklistForm} : x.pending = [] → ManageOutcome (.edit id form)
  | edited {form : BlacklistForm} {old : BlacklistEntry} :
      s.db.blacklist.find? old.key = some old → (form.entry old.id).key = old.key →
      x.pending = [.blacklist (form.entry old.id)] → ManageOutcome (.edit old.id form)
  | moved {form : BlacklistForm} {old : BlacklistEntry} :
      s.db.blacklist.find? old.key = some old → (form.entry old.id).key ≠ old.key →
      s.db.blacklist.find? (form.entry old.id).key = none →
      x.pending = [.unblacklist old.key, .blacklist (form.entry old.id)] →
      ManageOutcome (.edit old.id form)
  | removed {e : BlacklistEntry} : s.db.blacklist.find? e.key = some e →
      x.pending = [.unblacklist e.key] → ManageOutcome (.remove e.id)

inductive EditOutcome (id : String) (form : PromoCodeForm) : Prop
  | ignored : x.pending = [] → EditOutcome id form
  | edited {p p' : PromoCode} : s.db.promoCodes.find? id = some p → p'.id = p.id →
      p'.usedCount = p.usedCount → p'.maxUses = form.maxUses → x.pending = [.promoCode p'] →
      EditOutcome id form

inductive DossierOutcome (adminId transactionId : String) : Result → Prop
  | viewed {d : TransactionDossier} {now : Timestamp} :
      x.pending = [.audit (auditEntry .dossierViewed (some adminId) (some transactionId) []
        none none none now)] →
      DossierOutcome adminId transactionId (.dossier d)

end Outcomes

/-- What is known when a job commits with a result. -/
def Outcome (unicode : Unicode) (j : Job) (v : Result) (x : Txn signature)
    (s : Shared signature) : Prop :=
  match j with
  | .createDeposit settings r => DepositOutcome x s settings r v ∧ x.calls = []
  | .sbpPaymentWebhook p holdMinutes => PaymentOutcome x s p holdMinutes ∧ x.calls = []
  | .sbpChargebackWebhook p => ChargebackOutcome x s p ∧ x.calls = []
  | .processTransfer settings => WorkerOutcome x s unicode settings v
  | .resetOnHold transferId => ResetOutcome x s transferId ∧ x.calls = []
  | .addBlacklistEntry r => EntryOutcome x s unicode r v ∧ x.calls = []
  | .manageBlacklist change => ManageOutcome x s change ∧ x.calls = []
  | .editPromoCode id form => EditOutcome x s id form ∧ x.calls = []
  | .transactionDossier adminId transactionId =>
    DossierOutcome x adminId transactionId v ∧ x.calls = []

/-! ## Locks and requests -/

/-- The order in which the webhooks and deposits lock rows. -/
def level : Row → ℕ
  | .transaction _ => 0
  | .kycRecord _ => 1
  | .bingxTransfer _ => 2
  | .promoCode _ => 3
  | .blacklist (.email, _) => 4
  | .blacklist (.uid, _) => 5
  | .blacklist (.ip, _) => 6

/-- A lock the session already has, or a stronger one. -/
def Covered (held : List (Row × LockMode)) (l : Row × LockMode) : Prop :=
  ∃ m, (l.1, m) ∈ held ∧ m.covers l.2 = true

/-- What a session that holds locks has when it may have to wait for a row. -/
def Queues (held : List (Row × LockMode)) (r : Row) (s : Shared signature) : Job → Prop
  | .createDeposit _ _ => (∀ h ∈ held, ∃ id, h.1 = .promoCode id) ∧
      ∃ id, r = .transaction id ∧ s.db.transactions.find? id = none
  | .sbpPaymentWebhook p _ => (∀ h ∈ held, level h.1 < level r) ∧
      ∃ t, s.db.transactions.find? p.transactionId = some t ∧ t.status = .pending ∧
        ∀ h ∈ held, ∀ id, h.1 = .transaction id → id = t.id
  | .sbpChargebackWebhook p => (∀ h ∈ held, level h.1 < level r) ∧
      ∃ t, s.db.transactions.find? p.transactionId = some t ∧
        (∀ h ∈ held, ∀ id, h.1 = .transaction id → id = t.id) ∧
        ∀ y ∈ s.db.bingxTransfers.rows, r = .bingxTransfer y.id → y.transactionId = t.id
  | .processTransfer _ => ∃ y ∈ s.db.bingxTransfers.rows, r = .transaction y.transactionId ∧
      ∀ h ∈ held, h.1 = .bingxTransfer y.id
  | .resetOnHold _ | .addBlacklistEntry _ | .manageBlacklist _ | .editPromoCode _ _
  | .transactionDossier _ _ => False

/-- The rule for asking for locks. -/
def Asks (j : Job) (x : Txn signature) (wanted : List (Row × LockMode))
    (s : Shared signature) : Prop :=
  ∀ l ∈ wanted, Covered x.held l ∨ x.held = [] ∨ Queues x.held l.1 s j

/-- A request is for a stored transfer whose hold is over; within one transaction the
transfer is still as it was when it was claimed. -/
def Sends (j : Job) (q : TransferRequest) (s : Shared signature) : Prop :=
  ∃ y ∈ s.db.bingxTransfers.rows, y.request = q ∧ y.scheduledAt ≤ s.ext.now ∧
    (j.Together → y.status = .pending ∨ y.status = .processing)

/-- No single statement of a worker adds a transaction or a transfer or changes the blacklist. -/
structure Single (s s' : Shared signature) : Prop where
  transaction : ∀ id, s.db.transactions.find? id = none → s'.db.transactions.find? id = none
  transfer : ∀ id, s.db.bingxTransfers.find? id = none → s'.db.bingxTransfers.find? id = none
  blacklist : ∀ key, s'.db.blacklist.find? key = s.db.blacklist.find? key

/-- The contract of the payment flow. -/
def payments (unicode : Unicode) : Contract signature where
  inv := Inv
  guar := Guar
  ask := Asks
  sends := Sends
  post := Outcome unicode
  single := Single

end MoneyWay
