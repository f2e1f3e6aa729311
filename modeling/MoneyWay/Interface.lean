import MoneyWay.Schema

/-!
# Requests, answers and jobs

The validated inputs of the handlers, the requests to BingX and what can come
back, and the signature of the system: what its sessions run and what lies
outside the database.

A structure for an input carries what its schema or validator has checked, so a
request that would have been refused cannot be built.
-/

set_option autoImplicit false

namespace MoneyWay

open Keyed ReadCommitted Python

/-- The settings the deposit flow reads, as their validators accept them. -/
structure Settings where
  depositMinRub : Decimal
  depositMaxRub : Decimal
  depositCommissionPercent : Decimal
  rubUsdtRate : Decimal
  limits : .ofNat 0 < depositMinRub ∧ depositMinRub ≤ depositMaxRub := by decide
  commission_range : .ofNat 0 ≤ depositCommissionPercent ∧ depositCommissionPercent < .ofNat 100 :=
    by decide
  rate_positive : .ofNat 0 < rubUsdtRate := by decide

/-- `POST /deposits` of a user: the body, and what comes from the request itself. The
pattern of `bingx_uid` takes the digits of any script, none of which is before `0`. -/
structure DepositCreateRequest where
  user : User
  amountRub : Decimal
  bingxUid : String
  promoCode : Option String
  ipAddress : Option String
  deviceFingerprint : Option String
  userAgent : Option String
  amountRub_kopecks : ∃ k : ℕ, 0 < k ∧ k ≤ 10 ^ 10 ∧ amountRub.SameValue (.ofUnits k (-2))
  bingxUid_length : 3 ≤ bingxUid.length ∧ bingxUid.length ≤ 64 := by decide
  bingxUid_digits : (bingxUid.toList.all fun c => '0'.toNat ≤ c.toNat) = true := by decide
  promoCode_nonempty : ∀ c ∈ promoCode, c ≠ "" := by decide
  deviceFingerprint_length : ∀ f ∈ deviceFingerprint, f.length ≤ 128 := by decide

inductive PaymentStatus where
  | paid
  | failed
  deriving DecidableEq, Repr

structure SBPPaymentWebhook where
  transactionId : String
  status : PaymentStatus
  sbpPaymentId : Option String
  payerName : Option String
  payerPhone : Option String
  amountRub : Option Decimal
  transactionId_nonempty : transactionId ≠ "" := by decide
  sbpPaymentId_length : ∀ s ∈ sbpPaymentId, s.length ≤ 128 := by decide
  payerName_length : ∀ s ∈ payerName, s.length ≤ 255 := by decide
  payerPhone_length : ∀ s ∈ payerPhone, s.length ≤ 64 := by decide
  amountRub_kopecks :
    ∀ a ∈ amountRub, ∃ k : ℕ, 0 < k ∧ k < 10 ^ 12 ∧ a.SameValue (.ofUnits k (-2))

structure SBPChargebackWebhook where
  transactionId : String
  reason : String
  transactionId_nonempty : transactionId ≠ "" := by decide
  reason_length : reason.length ≤ 255 := by decide

/-- `POST /admin/blacklist`. -/
structure BlacklistCreateRequest where
  type : BlacklistType
  value : String
  reason : String
  comment : Option String
  value_length : 1 ≤ value.length ∧ value.length ≤ 255 := by decide
  reason_length : 1 ≤ reason.length ∧ reason.length ≤ 255 := by decide
  comment_length : ∀ c ∈ comment, c.length ≤ 512 := by decide

/-- The form of an entry of the blacklist in the admin panel. -/
structure BlacklistForm where
  type : BlacklistType
  value : String
  reason : String
  comment : Option String
  createdAt : Timestamp

/-- The row of a form, verbatim. -/
def BlacklistForm.entry (form : BlacklistForm) (id : String) : BlacklistEntry where
  id := id
  type := form.type
  value := form.value
  reason := form.reason
  comment := form.comment
  createdAt := form.createdAt

/-- The changes of the blacklist by hand: the admin panel creates, edits and deletes entries
(`BlacklistView`), and `DELETE /admin/blacklist/…` deletes them too. -/
inductive BlacklistChange where
  | create (id : String) (form : BlacklistForm)
  | edit (id : String) (form : BlacklistForm)
  | remove (id : String)

/-- The form of a promo code in the admin panel: `used_count` is not on it. -/
structure PromoCodeForm where
  code : String
  discountPercent : Numeric 2
  maxUses : Option ℤ
  isActive : Bool
  expiresAt : Option Timestamp

/-- The evidence for a dispute at the bank: the rows `GET /admin/transactions/…/dossier`
shows. -/
structure TransactionDossier where
  transaction : Transaction
  email : String
  kyc : Option KycRecord
  transfer : Option BingxTransfer
  fraudAlerts : List FraudAlert
  audit : List AuditEntry

/-- An inner transfer as it is sent: `idempotencyKey` is the `transferClientId`. -/
structure TransferRequest where
  uid : String
  amountUsdt : Numeric 8
  idempotencyKey : String
  deriving DecidableEq, Repr

/-- How the decoding of a body fails: it is no JSON, or it is nested so deeply that the decoder
raises `RecursionError`, which is no `ValueError`. -/
inductive DecodeError where
  | value
  | recursion
  deriving DecidableEq, Repr

/-- What the HTTP client hands to `_parse`: `json` is what `response.json()` returns or raises. -/
structure HttpResponse where
  statusCode : ℕ
  text : String
  json : Except DecodeError Json

/-- How a request to BingX ends for the worker. -/
inductive Answer where
  | connectionError (message : String)
  | response (r : HttpResponse)

inductive Error where
  | badRequest (detail : String)
  | conflict (detail : String)
  | notFound (detail : String)
  | value (message : String)
  | decimal (signal : Decimal.Signal)
  | foreignKeyViolation
  | uniqueViolation
  | checkViolation
  | dataException
  | numericValueOutOfRange
  | recursion
  deriving DecidableEq, Repr

/-- The options of a worker. With `autocommit` its statements commit one by one,
otherwise each task is one transaction. -/
structure WorkerSettings where
  staleSeconds : ℤ
  retryBackoffSeconds : ℤ
  autocommit : Bool := false

/-- What a session can run. `resetOnHold` is the administrator's return of a
transfer to the queue, `editPromoCode` the edit of a promo code in the admin panel and
`manageBlacklist` a change of the blacklist there. -/
inductive Job where
  | createDeposit (settings : Settings) (request : DepositCreateRequest)
  | sbpPaymentWebhook (payload : SBPPaymentWebhook) (holdMinutes : ℤ)
  | sbpChargebackWebhook (payload : SBPChargebackWebhook)
  | processTransfer (settings : WorkerSettings)
  | resetOnHold (transferId : String)
  | addBlacklistEntry (request : BlacklistCreateRequest)
  | manageBlacklist (change : BlacklistChange)
  | editPromoCode (id : String) (form : PromoCodeForm)
  | transactionDossier (adminId transactionId : String)

/-- The answer of `POST /deposits`. -/
structure DepositCreateResponse where
  transactionId : String
  status : TransactionStatus
  amountRub : Decimal
  amountUsdt : Decimal
  commission : Decimal
  paymentUrl : Option String
  deriving DecidableEq, Repr

inductive Result where
  | deposit (r : DepositCreateResponse)
  | accepted
  | processed (found : Bool)
  | added (entryId : String)
  | dossier (d : TransactionDossier)

/-- The world outside the database: the clock, the transfer requests on their way
to BingX and those it has accepted. -/
structure Bingx where
  now : Timestamp
  wire : List TransferRequest
  accepted : List TransferRequest

/-- BingX accepts a request that has reached it, or the request is lost or refused;
time passes. -/
inductive BingxEvent where
  | accept (q : TransferRequest)
  | drop (q : TransferRequest)
  | tick (delta : ℕ)

abbrev signature : Signature where
  Db := Database
  Write := Write
  Row := Row
  Request := TransferRequest
  Answer := Answer
  Error := Error
  Ident := String
  External := Bingx
  Event := BingxEvent
  Job := Job
  Result := Result

/-- A SQL statement. -/
abbrev Statement (β : Type) := Stmt Database Write Row Error β

/-- The code of a request handler or a worker step. -/
abbrev Handler (β : Type) := Prog signature β

end MoneyWay
