import MoneyWay.Deposits

/-!
# The webhooks of the SBP provider

A payment webhook closes a pending transaction as paid, with its KYC record and a
payout task, or as failed. A chargeback webhook marks a paid one, stops its payout
and keeps what an antifraud dispute needs.
-/

set_option autoImplicit false

namespace MoneyWay

open Keyed ReadCommitted Python Prog Sql

/-- The statuses in which the payment in roubles has taken place. -/
def chargebackEligibleStatuses : List TransactionStatus := [.paid, .completed, .error]

def notifyChannelBingxTransfers : String := "bingx_transfers"

/-- `payload.model_dump(mode="json")` of a payment webhook. -/
def SBPPaymentWebhook.modelDump (p : SBPPaymentWebhook) : Details :=
  [("transaction_id", .text p.transactionId),
    ("status", .text (match p.status with | .paid => "paid" | .failed => "failed")),
    ("sbp_payment_id", .ofText? p.sbpPaymentId), ("payer_name", .ofText? p.payerName),
    ("payer_phone", .ofText? p.payerPhone), ("amount_rub", p.amountRub.elim .none .amount)]

def SBPChargebackWebhook.modelDump (p : SBPChargebackWebhook) : Details :=
  [("transaction_id", .text p.transactionId), ("reason", .text p.reason)]

/-- How a status is spelled in the audit log. -/
def TransactionStatus.text : TransactionStatus → String
  | .pending => "pending"
  | .paid => "paid"
  | .completed => "completed"
  | .error => "error"
  | .failed => "failed"
  | .chargeback => "chargeback"

def mismatchDetails (transaction : Transaction) (reported : Decimal) : Details :=
  [("expected_amount_rub", .amount transaction.amountRub.toDecimal),
    ("reported_amount_rub", .amount reported)]

def amountMismatchAlert (transaction : Transaction) (reported : Decimal) (now : Timestamp) :
    FraudAlert where
  userId := some transaction.userId
  transactionId := some transaction.id
  alertType := .amountMismatch
  metadata := mismatchDetails transaction reported
  createdAt := now

/-- An alert for a paid amount that is not the expected one. -/
def recordAmountMismatch (transaction : Transaction) (reported : Decimal) : Handler Unit := do
  let now ← Prog.now
  exec (insertFraudAlert (amountMismatchAlert transaction reported now))
  writeAuditLog .sbpPaymentAmountMismatch (some transaction.userId) (some transaction.id)
    (mismatchDetails transaction reported) none none none

namespace Transaction

/-- `SET status = 'failed'` after a refused payment. -/
def reject (sbpPaymentId : Option String) (now : Timestamp) (t : Transaction) : Transaction :=
  { t with
    status := .failed
    sbpPaymentId := sbpPaymentId <|> t.sbpPaymentId
    updatedAt := now
    completedAt := some now }

/-- `SET status = 'paid'`. -/
def pay (sbpPaymentId : Option String) (now : Timestamp) (t : Transaction) : Transaction :=
  { t with
    status := .paid
    sbpPaymentId := sbpPaymentId <|> t.sbpPaymentId
    updatedAt := now }

/-- `SET status = 'chargeback'`. -/
def dispute (now : Timestamp) (t : Transaction) : Transaction :=
  { t with status := .chargeback, updatedAt := now }

end Transaction

def markTransactionFailed (payload : SBPPaymentWebhook) : Handler Unit := do
  let now ← Prog.now
  exec (updateTransaction payload.transactionId [(128, payload.sbpPaymentId)] (fun _ => true)
    (Transaction.reject payload.sbpPaymentId now))
  releasePromoCode payload.transactionId
  writeAuditLog .sbpPaymentFailed none (some payload.transactionId) payload.modelDump
    none none none

/-- The payer, with the amount of the transaction and not of the webhook. -/
def kycRecord (payload : SBPPaymentWebhook) (payerName payerPhone : String)
    (amountRub : Numeric 2) (now : Timestamp) : KycRecord where
  transactionId := payload.transactionId
  payerName := payerName
  payerPhone := payerPhone
  amountRub := amountRub
  createdAt := now

def upsertKycRecord (payload : SBPPaymentWebhook) (payerName payerPhone : String)
    (amountRub : Numeric 2) : Handler Unit := do
  let now ← Prog.now
  exec (upsertKyc (kycRecord payload payerName payerPhone amountRub now))

def idempotencyKey (transactionId : String) : String := "bingx-transfer:" ++ transactionId

/-- The payout task of a transaction, not due before the hold is over. -/
def newTransfer (transaction : Transaction) (holdMinutes : ℤ) (id : String) (now : Timestamp) :
    BingxTransfer where
  id := id
  transactionId := transaction.id
  idempotencyKey := idempotencyKey transaction.id
  bingxTransferId := none
  recipientUid := transaction.bingxUid
  amountUsdt := transaction.amountUsdt
  status := .pending
  attemptNumber := 0
  scheduledAt := now + holdMinutes * 60 * 10 ^ 6
  bingxResponse := none
  createdAt := now
  updatedAt := now
  amount_positive := transaction.amounts_positive.2.1

def scheduleBingxTransfer (transaction : Transaction) (holdMinutes : ℤ) : Handler Unit := do
  let now ← Prog.now
  let id ← uuid
  exec (insertTransfer (newTransfer transaction holdMinutes id now))
  exec (notify notifyChannelBingxTransfers)

/-- The paid branch of the payment webhook: status, KYC record, payout task. -/
def recordPayment (payload : SBPPaymentWebhook) (transaction : Transaction)
    (payerName payerPhone : String) (holdMinutes : ℤ) : Handler Unit := do
  let now ← Prog.now
  exec (updateTransaction payload.transactionId [(128, payload.sbpPaymentId)] (fun _ => true)
    (Transaction.pay payload.sbpPaymentId now))
  upsertKycRecord payload payerName payerPhone transaction.amountRub
  scheduleBingxTransfer transaction holdMinutes
  writeAuditLog .sbpPaymentPaid (some transaction.userId) (some payload.transactionId)
    payload.modelDump none none none

def handleSbpPaymentWebhook (payload : SBPPaymentWebhook) (holdMinutes : ℤ) :
    Handler Unit := do
  match ← exec (selectTransactionForUpdate payload.transactionId) with
  | none =>
    writeAuditLog .sbpPaymentUnmatched none none
      [("requested_transaction_id", .text payload.transactionId)] none none none
  | some transaction =>
    if transaction.status = .chargeback then return
    match payload.status with
    | .failed =>
      if transaction.status ≠ .pending then return
      markTransactionFailed payload
    | .paid =>
      if transaction.status ≠ .pending then return
      match payload.payerName.filter (· ≠ ""), payload.payerPhone.filter (· ≠ "") with
      | some payerName, some payerPhone =>
        match payload.amountRub with
        | none => raise (.badRequest "Paid SBP webhook must include amount_rub")
        | some amountRub =>
          if ¬ amountRub.SameValue transaction.amountRub.toDecimal then
            recordAmountMismatch transaction amountRub
          else recordPayment payload transaction payerName payerPhone holdMinutes
      | _, _ => raise (.badRequest "Paid SBP webhook must include payer data")

/-- Everything the bank needs to dispute the chargeback. -/
def chargebackDossier (d : Dossier) (reason : String) : Details :=
  let t := d.transaction
  [("reason", .text reason), ("email", .text d.email), ("bingx_uid", .text t.bingxUid),
    ("payer_ip", .ofText? t.payerIp), ("device_fingerprint", .ofText? t.deviceFingerprint),
    ("payer_name", .ofText? d.payerName), ("payer_phone", .ofText? d.payerPhone),
    ("amount_rub", .amount t.amountRub.toDecimal), ("amount_usdt", .amount t.amountUsdt.toDecimal),
    ("sbp_payment_id", .ofText? t.sbpPaymentId),
    ("bingx_transfer_id", .ofText? t.bingxTransferId), ("created_at", .time t.createdAt),
    ("completed_at", .ofTime? t.completedAt)]

def chargebackEntry (type : BlacklistType) (value reason id : String) (now : Timestamp) :
    BlacklistEntry where
  id := id
  type := type
  value := value
  reason := reason
  comment := some "chargeback webhook"
  createdAt := now

/-- One entry of the blacklist; an empty value is not entered. -/
def blacklistChargeback (type : BlacklistType) (value reason : String) : Handler Unit := do
  if value = "" then return
  let id ← uuid
  let now ← Prog.now
  exec (upsertBlacklist (chargebackEntry type value reason id now))

/-- The address and the recipient, not the IP, which may be shared. -/
def addChargebackBlacklist (d : Dossier) (reason : String) : Handler Unit := do
  blacklistChargeback .email d.email reason
  blacklistChargeback .uid d.transaction.bingxUid reason

namespace BingxTransfer

/-- The condition of the chargeback's `UPDATE`: not sent yet. -/
def unsentOf (transactionId : String) (x : BingxTransfer) : Bool :=
  decide (x.transactionId = transactionId ∧ (x.status = .pending ∨ x.status = .processing))

/-- `SET status = 'cancelled'`. -/
def cancel (now : Timestamp) (x : BingxTransfer) : BingxTransfer :=
  { x with status := .cancelled, updatedAt := now }

end BingxTransfer

def chargebackAlert (d : Dossier) (reason : String) (now : Timestamp) : FraudAlert where
  userId := some d.transaction.userId
  transactionId := some d.transaction.id
  alertType := .chargeback
  metadata := chargebackDossier d reason
  createdAt := now

def chargebackDetails (payload : SBPChargebackWebhook) (cancelledCount : ℕ) : Details :=
  payload.modelDump ++ [("cancelled_transfers", .count cancelledCount)]

/-- The eligible branch of the chargeback webhook. -/
def recordChargeback (payload : SBPChargebackWebhook) (d : Dossier) : Handler Unit := do
  let now ← Prog.now
  exec (updateTransaction payload.transactionId [] (fun _ => true) (Transaction.dispute now))
  -- stop a transfer that has not been sent yet
  let cancelledCount ← exec (updateTransfers (BingxTransfer.unsentOf payload.transactionId)
    (BingxTransfer.cancel now))
  releasePromoCode d.transaction.id
  addChargebackBlacklist d payload.reason
  exec (insertFraudAlert (chargebackAlert d payload.reason now))
  writeAuditLog .chargebackReceived (some d.transaction.userId) (some d.transaction.id)
    (chargebackDetails payload cancelledCount) none none none

def handleChargebackWebhook (payload : SBPChargebackWebhook) : Handler Unit := do
  match ← exec (selectDossierForUpdate payload.transactionId) with
  | none =>
    writeAuditLog .chargebackUnmatched none none
      [("requested_transaction_id", .text payload.transactionId),
        ("reason", .text payload.reason)] none none none
  | some dossier =>
    if dossier.transaction.status = .chargeback then return
    if dossier.transaction.status ∉ chargebackEligibleStatuses then
      writeAuditLog .chargebackIneligible (some dossier.transaction.userId)
        (some dossier.transaction.id)
        [("status", .text dossier.transaction.status.text), ("reason", .text payload.reason)]
        none none none
    else recordChargeback payload dossier

end MoneyWay
