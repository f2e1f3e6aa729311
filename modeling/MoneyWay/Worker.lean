import MoneyWay.BingX.Client
import MoneyWay.Webhooks

/-!
# The payout worker

One step of the worker: claim a transfer, send it to BingX, and record how it
ended.
-/

set_option autoImplicit false

namespace MoneyWay

open Keyed ReadCommitted Python Prog Sql

def maxTransferAttempts : ℕ := 3

def seconds (n : ℤ) : ℤ := n * 10 ^ 6

/-- Take one transfer that is due or stuck, unless its transaction is charged back or
failed; a retry waits for the backoff. -/
def claimNextTransfer (staleSeconds retryBackoffSeconds : ℤ) :
    Handler (Option ClaimedTransfer) := do
  let now ← Prog.now
  let staleCutoff := if staleSeconds > 0 then some (now - seconds staleSeconds) else none
  let retryCutoff := now - seconds retryBackoffSeconds
  exec (updateNextTransfer now staleCutoff retryCutoff)

/-- `UPDATE transactions … WHERE id = $1 AND status = 'paid'`: a chargeback that came in
between stands. -/
def updatePaid (transactionId : String) (texts : List (ℕ × Option String))
    (set : Transaction → Transaction) : Handler Unit :=
  exec (updateTransaction transactionId texts (fun t => decide (t.status = .paid)) set)

namespace BingxTransfer

/-- `SET status = …, bingx_response = …` of an outcome. -/
def settle (status : TransferStatus) (response : Json) (now : Timestamp) (x : BingxTransfer) :
    BingxTransfer :=
  { x with status, bingxResponse := some response, updatedAt := now }

/-- `SET status = 'completed', bingx_transfer_id = …`. -/
def complete (bingxTransferId : Option String) (response : Json) (now : Timestamp)
    (x : BingxTransfer) : BingxTransfer :=
  { x with
    status := .completed
    bingxTransferId
    bingxResponse := some response
    updatedAt := now }

/-- `SET status = 'pending'` of a reset. -/
def release (x : BingxTransfer) : BingxTransfer := { x with status := .pending }

end BingxTransfer

namespace Transaction

/-- `SET status = 'completed'`. -/
def complete (bingxTransferId : Option String) (now : Timestamp) (t : Transaction) :
    Transaction :=
  { t with
    status := .completed
    bingxTransferId
    completedAt := some now
    updatedAt := now }

/-- `SET status = 'error'`. -/
def escalate (now : Timestamp) (t : Transaction) : Transaction :=
  { t with status := .error, updatedAt := now }

/-- `SET status = 'failed'` when there is no recipient. -/
def fail (now : Timestamp) (t : Transaction) : Transaction :=
  { t with status := .failed, updatedAt := now }

end Transaction

def markTransferCompleted (transfer : ClaimedTransfer) (bingxTransferId : Option String)
    (response : Json) : Handler Unit := do
  let now ← Prog.now
  exec (updateTransfer transfer.id [(128, bingxTransferId)] (some response) (fun _ => true)
    (BingxTransfer.complete bingxTransferId response now))
  updatePaid transfer.transactionId [(128, bingxTransferId)]
    (Transaction.complete bingxTransferId now)
  writeAuditLog .transferCompleted none (some transfer.transactionId)
    [("bingx_transfer_id", .ofText? bingxTransferId)] none none none

/-- Back to the queue up to the limit of attempts, then to manual review. -/
def retryOrEscalateTransfer (transfer : ClaimedTransfer) (errorPayload : Json) :
    Handler Unit := do
  let nextStatus : TransferStatus :=
    if transfer.attemptNumber < maxTransferAttempts then .pending else .error
  let now ← Prog.now
  exec (updateTransfer transfer.id [] (some errorPayload) (fun _ => true)
    (BingxTransfer.settle nextStatus errorPayload now))
  if nextStatus = .error then
    let now ← Prog.now
    updatePaid transfer.transactionId [] (Transaction.escalate now)
    writeAuditLog .transferError none (some transfer.transactionId)
      [("attempt_number", .count transfer.attemptNumber)] none none none

def lowBalanceAlert (transfer : ClaimedTransfer) (now : Timestamp) : FraudAlert where
  userId := none
  transactionId := some transfer.transactionId
  alertType := .lowBalance
  metadata :=
    [("amount_usdt", .amount transfer.amountUsdt.toDecimal),
      ("recipient_uid", .text transfer.recipientUid)]
  createdAt := now

/-- Pause the transfer until the account is topped up; the transaction stays paid. -/
def holdTransferLowBalance (transfer : ClaimedTransfer) (errorPayload : Json) :
    Handler Unit := do
  let now ← Prog.now
  exec (updateTransfer transfer.id [] (some errorPayload) (fun _ => true)
    (BingxTransfer.settle .onHold errorPayload now))
  exec (insertFraudAlert (lowBalanceAlert transfer now))
  writeAuditLog .transferOnHold none (some transfer.transactionId)
    [("reason", .text "low_balance")] none none none

/-- The recipient does not exist: the transfer and the transaction have failed. -/
def markTransferTerminalFailed (transfer : ClaimedTransfer) (errorPayload : Json) :
    Handler Unit := do
  let now ← Prog.now
  exec (updateTransfer transfer.id [] (some errorPayload) (fun _ => true)
    (BingxTransfer.settle .failed errorPayload now))
  updatePaid transfer.transactionId [] (Transaction.fail now)
  writeAuditLog .transferFailed none (some transfer.transactionId)
    [("recipient_uid", .text transfer.recipientUid)] none none none

def extractTransferId (unicode : Unicode) (response : List (String × Json)) : Option String :=
  match (dictGet response "data").bind Json.dict? with
  | none => none
  | some data =>
    let id := (dictGet data "id").getD .null
    let transferId := if id.truthy then id else (dictGet data "transferId").getD .null
    if transferId.truthy then some (transferId.toStr unicode) else none

/-- Where an error of BingX leads. -/
def handleApiError (unicode : Unicode) (transfer : ClaimedTransfer) (e : BingXAPIError) :
    Handler Unit :=
  let payload := (e.payload.dict?).getD [("code", e.code), ("msg", .str e.msg)]
  if e.isDuplicate unicode then
    markTransferCompleted transfer (extractTransferId unicode payload) (.obj payload)
  else if e.isInsufficientBalance unicode then holdTransferLowBalance transfer (.obj payload)
  else if e.isRecipientNotFound unicode then markTransferTerminalFailed transfer (.obj payload)
  else retryOrEscalateTransfer transfer (.obj payload)

/-- Record how the call for a claimed transfer ended. A `RecursionError` is not caught. -/
def recordOutcome (unicode : Unicode) (transfer : ClaimedTransfer) :
    Except CallError (List (String × Json)) → Handler Unit
  | .error (.api e) => handleApiError unicode transfer e
  | .error (.connection message) =>
    retryOrEscalateTransfer transfer (.obj [("error", .str message)])
  | .error .recursion => raise .recursion
  | .ok response =>
    -- accepted, with or without an id to reconcile by
    markTransferCompleted transfer (extractTransferId unicode response) (.obj response)

def processNextBingxTransfer (unicode : Unicode) (settings : WorkerSettings) :
    Handler Bool := do
  match ← claimNextTransfer settings.staleSeconds settings.retryBackoffSeconds with
  | none => return false
  | some transfer =>
    let result ← createInternalTransfer unicode transfer.recipientUid transfer.amountUsdt
      transfer.idempotencyKey
    recordOutcome unicode transfer result
    return true

/-- The administrator's reset of a transfer on hold: its status and nothing else. -/
def resetOnHold (transferId : String) : Handler Unit :=
  exec (updateTransfer transferId [] none (fun x => decide (x.status = .onHold))
    BingxTransfer.release)

end MoneyWay
