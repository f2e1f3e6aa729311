import MoneyWay.Statements

/-!
# Creating deposits

The quote, the promo code, the antifraud checks and the pending transaction of
`POST /deposits`, and the audit log every handler writes to.
-/

set_option autoImplicit false

namespace MoneyWay

open Keyed ReadCommitted Python Prog Sql

/-- Leave the handler by an exception. -/
def raise {α : Type} (e : Error) : Handler α := .throw e

/-- The row of the audit log for an event. -/
def auditEntry (eventType : EventType) (userId transactionId : Option String)
    (payload : Details) (ipAddress deviceFingerprint userAgent : Option String)
    (now : Timestamp) : AuditEntry where
  eventType := eventType
  userId := userId
  transactionId := transactionId
  payload := if payload.isEmpty then none else some payload
  ipAddress := ipAddress
  deviceFingerprint := deviceFingerprint
  userAgent := (userAgent.filter (· ≠ "")).map (slice 512)
  createdAt := now

def writeAuditLog (eventType : EventType) (userId transactionId : Option String)
    (payload : Details) (ipAddress deviceFingerprint userAgent : Option String) :
    Handler Unit := do
  let now ← Prog.now
  exec (insertAuditLog (auditEntry eventType userId transactionId payload ipAddress
    deviceFingerprint userAgent now))

/-- Commission and USDT, both from the sum: the promo code's discount is on the
commission. -/
def calculateDepositAmounts (amountRub : Decimal) (settings : Settings)
    (discountPercent : Decimal) : Except Decimal.Signal (Decimal × Decimal) := do
  let ctx := Decimal.Context.default
  let baseCommission ←
    ctx.div (← ctx.mul amountRub settings.depositCommissionPercent) (.ofNat 100)
  let discounted ← ctx.mul baseCommission (← ctx.sub (.ofNat 100) discountPercent)
  let commission ← ctx.quantize .halfEven (← ctx.div discounted (.ofNat 100)) (-2)
  let netRub ← ctx.sub amountRub commission
  let amountUsdt ← ctx.quantize .down (← ctx.div netRub settings.rubUsdtRate) (-8)
  return (commission, amountUsdt)

theorem exists_of_bind_eq_ok {ε α β : Type} {x : Except ε α} {f : α → Except ε β} {b : β}
    (h : x >>= f = .ok b) : ∃ a, x = .ok a ∧ f a = .ok b := by
  cases x with
  | error => cases h
  | ok a => exact ⟨a, rfl, h⟩

/-- The USDT amount has the eight places of its column. -/
theorem exponent_amountUsdt {amountRub discountPercent commission amountUsdt : Decimal}
    {settings : Settings}
    (h : calculateDepositAmounts amountRub settings discountPercent =
      .ok (commission, amountUsdt)) : amountUsdt.exponent = -8 := by
  unfold calculateDepositAmounts at h
  iterate 8 obtain ⟨_, -, h⟩ := exists_of_bind_eq_ok h
  -- the last operation is the rounding
  obtain ⟨u, hu, h⟩ := exists_of_bind_eq_ok h
  cases h
  exact Decimal.Context.exponent_quantize hu (by decide)

def reservePromoCode (code : String) (now : Timestamp) :
    Handler (Option (String × Numeric 2)) :=
  exec (updatePromoReserve code now)

/-- Give the use of a promo code back. -/
def releasePromoCode (transactionId : String) : Handler Unit :=
  exec (updatePromoRelease transactionId)

def deviceReuseAlert (user : User) (transactionId deviceFingerprint other : String)
    (now : Timestamp) : FraudAlert where
  userId := some user.id
  transactionId := some transactionId
  alertType := .deviceReuse
  metadata := [("device_fingerprint", .text deviceFingerprint), ("other_user_id", .text other)]
  createdAt := now

/-- An alert when another user has paid from the same device. -/
def flagDeviceReuse (user : User) (transactionId deviceFingerprint : String) :
    Handler Unit := do
  match ← exec (selectDeviceUser deviceFingerprint user.id) with
  | none => return
  | some other =>
    let now ← Prog.now
    exec (insertFraudAlert (deviceReuseAlert user transactionId deviceFingerprint other now))

def ensureNotBlacklisted (unicode : Unicode) (ipAddress : Option String)
    (email bingxUid : String) : Handler Unit := do
  if ← exec (selectBlacklisted (unicode.lower email) bingxUid ipAddress) then
    raise (.conflict "Deposit is blocked by antifraud rules")

/-- The promo code part of `createDeposit`: the id and the discount. -/
def applyPromoCode (promoCode : Option String) (now : Timestamp) :
    Handler (Option String × Decimal) := do
  match promoCode with
  | none => return (none, .ofNat 0)
  | some code =>
    match ← reservePromoCode code now with
    | none => raise (.badRequest "Promo code is invalid, expired or exhausted")
    | some (id, discountPercent) => return (some id, discountPercent.toDecimal)

def storedIp (r : DepositCreateRequest) : Option String :=
  (r.ipAddress.filter (· ≠ "")).map (slice 64)

/-- The recipient may differ from the profile: it is recorded, not refused. -/
def depositDetails (r : DepositCreateRequest) (promoCodeId : Option String) : Details :=
  [("amount_rub", .amount r.amountRub), ("bingx_uid", .text r.bingxUid),
    ("uid_matches_profile",
      .flag (decide (r.user.bingxUid = none ∨ r.user.bingxUid = some r.bingxUid))),
    ("promo_code_id", .ofText? promoCodeId)]

def newTransaction (r : DepositCreateRequest) (transactionId : String)
    (promoCodeId : Option String) (commission amountUsdt : Decimal) (now : Timestamp) :
    NewTransaction where
  id := transactionId
  userId := r.user.id
  promoCodeId := promoCodeId
  amountRub := r.amountRub
  amountUsdt := amountUsdt
  commission := commission
  bingxUid := r.bingxUid
  payerIp := storedIp r
  deviceFingerprint := r.deviceFingerprint
  now := now

def checkDevice (r : DepositCreateRequest) (transactionId : String) : Handler Unit :=
  match r.deviceFingerprint.filter (· ≠ "") with
  | none => pure ()
  | some fingerprint => flagDeviceReuse r.user transactionId fingerprint

/-- The rows of `createDeposit`, once the quote is known. -/
def recordDeposit (r : DepositCreateRequest) (transactionId : String)
    (promoCodeId : Option String) (commission amountUsdt : Decimal) (now : Timestamp) :
    Handler DepositCreateResponse := do
  exec (insertTransaction (newTransaction r transactionId promoCodeId commission amountUsdt now))
  checkDevice r transactionId
  writeAuditLog .depositCreated (some r.user.id) (some transactionId)
    (depositDetails r promoCodeId) (storedIp r) r.deviceFingerprint r.userAgent
  return {
    transactionId
    status := .pending
    amountRub := r.amountRub
    amountUsdt
    commission
    paymentUrl := none }

def createDeposit (unicode : Unicode) (settings : Settings) (r : DepositCreateRequest) :
    Handler DepositCreateResponse := do
  -- `now()` of PostgreSQL is the time the transaction began
  let started ← Prog.now
  if r.amountRub < settings.depositMinRub ∨ settings.depositMaxRub < r.amountRub then
    raise (.badRequest "Deposit amount is outside allowed limits")
  else
    ensureNotBlacklisted unicode r.ipAddress r.user.email r.bingxUid
    let (promoCodeId, discountPercent) ← applyPromoCode r.promoCode started
    let now ← Prog.now
    let transactionId ← uuid
    match calculateDepositAmounts r.amountRub settings discountPercent with
    | .error signal => raise (.decimal signal)
    | .ok (commission, amountUsdt) =>
      if amountUsdt ≤ .ofNat 0 then
        raise (.badRequest "Deposit amount is too low after commission")
      else
        recordDeposit r transactionId promoCodeId commission amountUsdt now

end MoneyWay
