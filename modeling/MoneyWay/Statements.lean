import Mathlib.Data.List.MinMax
import MoneyWay.Interface

/-!
# The SQL statements

Each statement of the handlers: what it returns, which row images it writes and
which locks it takes besides those of its writes. A statement that has to wait for
a row runs once it gets it, on the rows as they are then, which is what `READ
COMMITTED` does when it checks the condition of an `UPDATE` or `FOR UPDATE` again.

A foreign key takes `FOR KEY SHARE` on the transaction it refers to. Users and promo
codes are only ever referred to or updated outside their keys, so the locks on them
from foreign keys never make anyone wait and are left out.
-/

set_option autoImplicit false

namespace MoneyWay

open Keyed ReadCommitted Python

namespace Sql

/-- Every text fits its column and has no character PostgreSQL refuses. -/
def fits (texts : List (ℕ × Option String)) : Bool :=
  texts.all fun c => c.2.all fun s => s.length ≤ c.1 && storableText s

/-- `SELECT … FROM transactions WHERE id = $1 FOR UPDATE`. -/
def selectTransactionForUpdate (id : String) : Statement (Option Transaction) := fun _ d =>
  match d.transactions.find? id with
  | none => .ok { value := none }
  | some t => .ok { value := some t, locks := [(.transaction t.id, .update)] }

/-- What the chargeback handler reads with the transaction. -/
structure Dossier where
  transaction : Transaction
  email : String
  payerName : Option String
  payerPhone : Option String

/-- The transaction with its user and, if there is one, its KYC record, `FOR UPDATE`
of the transaction. -/
def selectDossierForUpdate (id : String) : Statement (Option Dossier) := fun _ d =>
  match d.transactions.find? id with
  | none => .ok { value := none }
  | some t =>
    match d.users.find? t.userId with
    | none => .ok { value := none }
    | some u =>
      let k := d.kycRecords.find? t.id
      .ok {
        value := some ⟨t, u.email, k.map (·.payerName), k.map (·.payerPhone)⟩
        locks := [(.transaction t.id, .update)] }

/-- `UPDATE transactions SET … WHERE id = $1 AND guard`. -/
def updateTransaction (id : String) (texts : List (ℕ × Option String))
    (guard : Transaction → Bool) (set : Transaction → Transaction) : Statement Unit := fun _ d =>
  if fits texts then
    match d.transactions.find? id with
    | none => .ok { value := () }
    | some t =>
      if guard t then .ok { value := (), writes := [.transaction (set t)] }
      else .ok { value := () }
  else .error .dataException

/-- `UPDATE bingx_transfers SET … WHERE id = $1 AND guard`. -/
def updateTransfer (id : String) (texts : List (ℕ × Option String)) (response : Option Json)
    (guard : BingxTransfer → Bool) (set : BingxTransfer → BingxTransfer) : Statement Unit :=
  fun _ d =>
    if fits texts && response.all Json.storable then
      match d.bingxTransfers.find? id with
      | none => .ok { value := () }
      | some x =>
        if guard x then .ok { value := (), writes := [.bingxTransfer (set x)] }
        else .ok { value := () }
    else .error .dataException

/-- `UPDATE bingx_transfers SET … WHERE condition`, with the number of rows. -/
def updateTransfers (condition : BingxTransfer → Bool) (set : BingxTransfer → BingxTransfer) :
    Statement ℕ := fun _ d =>
  let rows := d.bingxTransfers.rows.filter condition
  .ok { value := rows.length, writes := rows.map fun x => .bingxTransfer (set x) }

/-- The transfer may be claimed: it is due, or stuck, and its transaction is alive. -/
def claimable (now : Timestamp) (staleCutoff : Option Timestamp) (retryCutoff : Timestamp)
    (d : Database) (x : BingxTransfer) : Bool :=
  (decide (x.status = .pending ∧ x.scheduledAt ≤ now ∧
      (x.attemptNumber = 0 ∨ x.updatedAt ≤ retryCutoff)) ||
    staleCutoff.any fun c => decide (x.status = .processing ∧ x.updatedAt < c)) &&
  (d.transactions.find? x.transactionId).any fun t =>
    decide (t.status ≠ .chargeback ∧ t.status ≠ .failed)

/-- `RETURNING` of the claim. -/
structure ClaimedTransfer where
  id : String
  transactionId : String
  recipientUid : String
  amountUsdt : Numeric 8
  attemptNumber : ℕ
  idempotencyKey : String
  deriving DecidableEq, Repr

/-- `SET status = 'processing'` of the claim. -/
def claim (now : Timestamp) (x : BingxTransfer) : BingxTransfer :=
  { x with status := .processing, attemptNumber := x.attemptNumber + 1, updatedAt := now }

def returning (x : BingxTransfer) : ClaimedTransfer :=
  ⟨x.id, x.transactionId, x.recipientUid, x.amountUsdt, x.attemptNumber, x.idempotencyKey⟩

/-- The claim: the oldest claimable transfer nobody has locked (`FOR UPDATE SKIP LOCKED`,
`ORDER BY created_at LIMIT 1`), set to processing. -/
def updateNextTransfer (now : Timestamp) (staleCutoff : Option Timestamp)
    (retryCutoff : Timestamp) : Statement (Option ClaimedTransfer) := fun locked d =>
  let due := d.bingxTransfers.rows.filter fun x =>
    claimable now staleCutoff retryCutoff d x && !locked (.bingxTransfer x.id) .update
  match @List.argmin _ _ Int.instLinearOrder.toPreorder _ BingxTransfer.createdAt due with
  | none => .ok { value := none }
  | some x =>
    .ok {
      value := some (returning (claim now x))
      writes := [.bingxTransfer (claim now x)]
      locks := [(.bingxTransfer x.id, .update)] }

/-- The user and the transaction a row refers to exist. -/
def referenced (d : Database) (userId transactionId : Option String) : Bool :=
  userId.all (fun u => (d.users.find? u).isSome) &&
    transactionId.all fun t => (d.transactions.find? t).isSome

/-- `FOR KEY SHARE` on the transaction a row refers to. -/
@[simp] def keyShare (transactionId : Option String) : List (Row × LockMode) :=
  transactionId.toList.map fun t => (.transaction t, .keyShare)

def insertFraudAlert (a : FraudAlert) : Statement Unit := fun _ d =>
  if !storableDetails a.metadata then .error .dataException
  else if referenced d a.userId a.transactionId then
    .ok { value := (), writes := [.fraudAlert a], locks := keyShare a.transactionId }
  else .error .foreignKeyViolation

def insertAuditLog (e : AuditEntry) : Statement Unit := fun _ d =>
  if !(e.payload.all storableDetails &&
      fits [(64, e.ipAddress), (128, e.deviceFingerprint), (512, e.userAgent)]) then
    .error .dataException
  else if referenced d e.userId e.transactionId then
    .ok { value := (), writes := [.audit e], locks := keyShare e.transactionId }
  else .error .foreignKeyViolation

/-- `INSERT INTO kyc_records … ON CONFLICT (transaction_id) DO UPDATE`. -/
def upsertKyc (r : KycRecord) : Statement Unit := fun _ d =>
  if !fits [(255, some r.payerName), (64, some r.payerPhone)] then .error .dataException
  else
    match d.kycRecords.find? r.transactionId with
    | some old =>
      .ok {
        value := ()
        writes := [.kycRecord { old with
          payerName := r.payerName, payerPhone := r.payerPhone, amountRub := r.amountRub }] }
    | none =>
      if referenced d none (some r.transactionId) then
        .ok { value := (), writes := [.kycRecord r], locks := keyShare (some r.transactionId) }
      else .error .foreignKeyViolation

/-- `INSERT INTO bingx_transfers … ON CONFLICT (idempotency_key) DO NOTHING`. -/
def insertTransfer (x : BingxTransfer) : Statement Unit := fun _ d =>
  if d.bingxTransfers.rows.any fun y => y.idempotencyKey = x.idempotencyKey then
    .ok { value := () }
  else if (d.bingxTransfers.find? x.id).isSome then .error .uniqueViolation
  else if referenced d none (some x.transactionId) then
    .ok { value := (), writes := [.bingxTransfer x], locks := keyShare (some x.transactionId) }
  else .error .foreignKeyViolation

/-- `NOTIFY`, delivered on commit. -/
def notify (channel : String) : Statement Unit := fun _ _ =>
  .ok { value := (), writes := [.notify channel] }

/-- What `INSERT INTO transactions` is given. -/
structure NewTransaction where
  id : String
  userId : String
  promoCodeId : Option String
  amountRub : Decimal
  amountUsdt : Decimal
  commission : Decimal
  bingxUid : String
  payerIp : Option String
  deviceFingerprint : Option String
  now : Timestamp

def insertTransaction (t : NewTransaction) : Statement Unit := fun _ d =>
  match toNumeric 18 2 t.amountRub, toNumeric 18 8 t.amountUsdt, toNumeric 18 2 t.commission with
  | some amountRub, some amountUsdt, some commission =>
    if !fits [(36, some t.id), (64, t.payerIp), (128, t.deviceFingerprint)] then
      .error .dataException
    else if h : t.bingxUid.length ≤ 64 then
      if h' : 0 < amountRub ∧ 0 < amountUsdt ∧ 0 ≤ commission then
        if (d.transactions.find? t.id).isSome then .error .uniqueViolation
        else if (d.users.find? t.userId).isSome &&
            t.promoCodeId.all fun p => (d.promoCodes.find? p).isSome then
          .ok {
            value := ()
            writes := [.transaction {
              id := t.id
              userId := t.userId
              promoCodeId := t.promoCodeId
              amountRub
              amountUsdt
              commission
              status := .pending
              sbpPaymentId := none
              bingxTransferId := none
              bingxUid := t.bingxUid
              payerIp := t.payerIp
              deviceFingerprint := t.deviceFingerprint
              createdAt := t.now
              updatedAt := t.now
              completedAt := none
              amounts_positive := h'
              bingxUid_length := h }] }
        else .error .foreignKeyViolation
      else .error .checkViolation
    else .error .dataException
  | _, _, _ => .error .numericValueOutOfRange

/-- The row an insert of a transaction leaves. -/
structure StoredAs (n : NewTransaction) (t : Transaction) : Prop where
  id : t.id = n.id
  userId : t.userId = n.userId
  promoCodeId : t.promoCodeId = n.promoCodeId
  amountRub : toNumeric 18 2 n.amountRub = some t.amountRub
  amountUsdt : toNumeric 18 8 n.amountUsdt = some t.amountUsdt
  commission : toNumeric 18 2 n.commission = some t.commission
  status : t.status = .pending
  sbpPaymentId : t.sbpPaymentId = none
  bingxTransferId : t.bingxTransferId = none
  bingxUid : t.bingxUid = n.bingxUid
  payerIp : t.payerIp = n.payerIp
  deviceFingerprint : t.deviceFingerprint = n.deviceFingerprint
  texts : fits [(36, some n.id), (64, n.payerIp), (128, n.deviceFingerprint)] = true

/-- The largest `INTEGER`. -/
def maxInteger : ℕ := 2 ^ 31 - 1

/-- The promo code can be used at this time. -/
def Usable (code : String) (now : Timestamp) (p : PromoCode) : Bool :=
  decide (p.code = code) && p.isActive && (p.expiresAt.all fun e => now < e) &&
    p.maxUses.all fun m => (p.usedCount : ℤ) < m

/-- `UPDATE promo_codes SET used_count = used_count + 1 … RETURNING id, discount_percent`. -/
def updatePromoReserve (code : String) (now : Timestamp) :
    Statement (Option (String × Numeric 2)) := fun _ d =>
  if storableText code then
    match d.promoCodes.rows.find? (Usable code now) with
    | none => .ok { value := none }
    | some p =>
      if p.usedCount < maxInteger then
        .ok {
          value := some (p.id, p.discountPercent)
          writes := [.promoCode { p with usedCount := p.usedCount + 1 }] }
      else .error .numericValueOutOfRange
  else .error .dataException

/-- `UPDATE promo_codes SET used_count = used_count - 1` of the transaction's code. -/
def updatePromoRelease (transactionId : String) : Statement Unit := fun _ d =>
  match ((d.transactions.find? transactionId).bind (·.promoCodeId)).bind d.promoCodes.find? with
  | none => .ok { value := () }
  | some p =>
    if 0 < p.usedCount then
      .ok { value := (), writes := [.promoCode { p with usedCount := p.usedCount - 1 }] }
    else .ok { value := () }

/-- The write of a release for a transaction. -/
def releaseWrites (d : Database) (t : Transaction) : List Write :=
  match t.promoCodeId.bind d.promoCodes.find? with
  | none => []
  | some p =>
    if 0 < p.usedCount then [.promoCode { p with usedCount := p.usedCount - 1 }] else []

/-- The blacklist has an entry for the address, the recipient or the IP. -/
def selectBlacklisted (email bingxUid : String) (ipAddress : Option String) : Statement Bool :=
  fun _ d =>
    .ok { value := d.blacklist.rows.any fun e =>
      decide (e.type = .email ∧ e.value = email ∨ e.type = .uid ∧ e.value = bingxUid ∨
        e.type = .ip ∧ ipAddress = some e.value) }

/-- Another user with a paid or completed transaction of this fingerprint. -/
def selectDeviceUser (deviceFingerprint userId : String) : Statement (Option String) := fun _ d =>
  .ok { value := (d.transactions.rows.find? fun t =>
    decide (t.deviceFingerprint = some deviceFingerprint ∧ t.userId ≠ userId ∧
      (t.status = .paid ∨ t.status = .completed))).map (·.userId) }

/-- `UPDATE promo_codes SET …` of the admin panel: the use count is kept. -/
def updatePromoCode (id : String) (form : PromoCodeForm) : Statement Unit := fun _ d =>
  match d.promoCodes.find? id with
  | none => .ok { value := () }
  | some p =>
    if !fits [(64, some form.code)] then .error .dataException
    else if d.promoCodes.rows.any fun q => decide (q.id ≠ id ∧ q.code = form.code) then
      .error .uniqueViolation
    else if h : 0 ≤ form.discountPercent ∧ form.discountPercent ≤ 10000 then
      .ok {
        value := ()
        writes := [.promoCode { p with
          code := form.code
          discountPercent := form.discountPercent
          maxUses := form.maxUses
          isActive := form.isActive
          expiresAt := form.expiresAt
          discount_range := h }] }
    else .error .checkViolation

/-- `INSERT INTO blacklist … ON CONFLICT (type, value) DO UPDATE`. -/
def upsertBlacklist (e : BlacklistEntry) : Statement Unit := fun _ d =>
  if fits [(255, some e.value), (255, some e.reason), (512, e.comment)] then
    match d.blacklist.find? e.key with
    | some old =>
      .ok {
        value := ()
        writes := [.blacklist { old with reason := e.reason, comment := e.comment }] }
    | none => .ok { value := (), writes := [.blacklist e] }
  else .error .dataException

/-- `INSERT INTO blacklist` of the admin panel. -/
def insertBlacklist (e : BlacklistEntry) : Statement Unit := fun _ d =>
  if !fits [(36, some e.id), (255, some e.value), (255, some e.reason), (512, e.comment)] then
    .error .dataException
  else if (d.blacklist.find? e.key).isSome || d.blacklist.rows.any fun o => o.id = e.id then
    .error .uniqueViolation
  else .ok { value := (), writes := [.blacklist e] }

/-- `UPDATE blacklist SET … WHERE id = $1` of the admin panel. -/
def updateBlacklist (id : String) (form : BlacklistForm) : Statement Unit := fun _ d =>
  match d.blacklist.rows.find? fun o => o.id = id with
  | none => .ok { value := () }
  | some old =>
    let e := form.entry id
    if !fits [(255, some e.value), (255, some e.reason), (512, e.comment)] then
      .error .dataException
    else if e.key = old.key then .ok { value := (), writes := [.blacklist e] }
    else if (d.blacklist.find? e.key).isSome then .error .uniqueViolation
    else .ok { value := (), writes := [.unblacklist old.key, .blacklist e] }

/-- `DELETE FROM blacklist WHERE id = $1 RETURNING id`: whether there was one. -/
def deleteBlacklist (id : String) : Statement Bool := fun _ d =>
  match d.blacklist.rows.find? fun o => o.id = id with
  | none => .ok { value := false }
  | some e => .ok { value := true, writes := [.unblacklist e.key] }

/-- The transaction with the address of its user. -/
def selectWithEmail (id : String) : Statement (Option (Transaction × String)) := fun _ d =>
  .ok { value := (d.transactions.find? id).bind fun t =>
    (d.users.find? t.userId).map fun u => (t, u.email) }

def selectKyc (transactionId : String) : Statement (Option KycRecord) := fun _ d =>
  .ok { value := d.kycRecords.find? transactionId }

def selectTransfer (transactionId : String) : Statement (Option BingxTransfer) := fun _ d =>
  .ok { value := d.bingxTransfers.rows.find? fun y => y.transactionId = transactionId }

/-- `ORDER BY created_at LIMIT 200`. -/
def earliest {α : Type} (createdAt : α → Timestamp) (rows : List α) : List α :=
  (rows.mergeSort fun a b => decide (createdAt a ≤ createdAt b)).take 200

def selectAlerts (transactionId : String) : Statement (List FraudAlert) := fun _ d =>
  let rows := d.fraudAlerts.filter fun a => a.transactionId = some transactionId
  .ok { value := earliest FraudAlert.createdAt rows }

def selectAudit (transactionId : String) : Statement (List AuditEntry) := fun _ d =>
  let rows := d.auditLog.filter fun e => e.transactionId = some transactionId
  .ok { value := earliest AuditEntry.createdAt rows }

/-- The row of the blacklist after an upsert. -/
def blacklisted (d : Database) (e : BlacklistEntry) : BlacklistEntry :=
  match d.blacklist.find? e.key with
  | some old => { old with reason := e.reason, comment := e.comment }
  | none => e

/-! ## What a statement that has run has done -/

section

variable {locked : Row → LockMode → Bool} {d : Database}

theorem selectTransactionForUpdate_ok {id : String} {eff : Effect Write Row (Option Transaction)}
    (h : selectTransactionForUpdate id locked d = .ok eff) :
    d.transactions.find? id = none ∧ eff = { value := none } ∨
      ∃ t, d.transactions.find? id = some t ∧
        eff = { value := some t, locks := [(.transaction id, .update)] } := by
  unfold selectTransactionForUpdate at h
  split at h
  · next hf => cases h; exact .inl ⟨hf, rfl⟩
  · next t hf =>
    cases h
    exact .inr ⟨t, hf, by rw [Table.key_of_find? hf]⟩

theorem selectDossierForUpdate_ok {id : String} {eff : Effect Write Row (Option Dossier)}
    (hu : ∀ t ∈ d.transactions.rows, ∃ u, d.users.find? t.userId = some u)
    (h : selectDossierForUpdate id locked d = .ok eff) :
    d.transactions.find? id = none ∧ eff = { value := none } ∨
      ∃ (f : Dossier) (u : User), d.transactions.find? id = some f.transaction ∧
        d.users.find? f.transaction.userId = some u ∧ f.email = u.email ∧
        eff = { value := some f, locks := [(.transaction id, .update)] } := by
  unfold selectDossierForUpdate at h
  split at h
  · next hf => cases h; exact .inl ⟨hf, rfl⟩
  · next t hf =>
    obtain ⟨u, hu⟩ := hu t (Table.mem_of_find? hf)
    simp only [hu] at h
    cases h
    exact .inr ⟨⟨t, u.email, _, _⟩, u, hf, hu, rfl, by rw [Table.key_of_find? hf]⟩

theorem updateTransaction_ok {id : String} {texts : List (ℕ × Option String)}
    {guard : Transaction → Bool} {set : Transaction → Transaction} {t : Transaction}
    {eff : Effect Write Row Unit} (ht : d.transactions.find? id = some t)
    (h : updateTransaction id texts guard set locked d = .ok eff) :
    eff = { value := (), writes := if guard t then [.transaction (set t)] else [] } := by
  unfold updateTransaction at h
  split at h
  · simp only [ht] at h
    split at h <;> next hg => cases h; simp [hg]
  · cases h

theorem fits_of_updateTransaction {id : String} {texts : List (ℕ × Option String)}
    {guard : Transaction → Bool} {set : Transaction → Transaction} {eff : Effect Write Row Unit}
    (h : updateTransaction id texts guard set locked d = .ok eff) : fits texts = true := by
  unfold updateTransaction at h
  split at h
  · assumption
  · cases h

theorem updateTransaction_none {id : String} {texts : List (ℕ × Option String)}
    {guard : Transaction → Bool} {set : Transaction → Transaction} {eff : Effect Write Row Unit}
    (ht : d.transactions.find? id = none)
    (h : updateTransaction id texts guard set locked d = .ok eff) : eff = { value := () } := by
  unfold updateTransaction at h
  split at h
  · simp only [ht] at h
    cases h
    rfl
  · cases h

theorem updateTransfer_ok {id : String} {texts : List (ℕ × Option String)}
    {response : Option Json} {guard : BingxTransfer → Bool} {set : BingxTransfer → BingxTransfer}
    {x : BingxTransfer} {eff : Effect Write Row Unit} (hx : d.bingxTransfers.find? id = some x)
    (h : updateTransfer id texts response guard set locked d = .ok eff) :
    eff = { value := (), writes := if guard x then [.bingxTransfer (set x)] else [] } := by
  unfold updateTransfer at h
  split at h
  · simp only [hx] at h
    split at h <;> next hg => cases h; simp [hg]
  · cases h

theorem fits_of_updateTransfer {id : String} {texts : List (ℕ × Option String)}
    {response : Option Json} {guard : BingxTransfer → Bool} {set : BingxTransfer → BingxTransfer}
    {eff : Effect Write Row Unit}
    (h : updateTransfer id texts response guard set locked d = .ok eff) :
    fits texts = true ∧ response.all Json.storable = true := by
  unfold updateTransfer at h
  split at h
  · next hfits => exact Bool.and_eq_true _ _ ▸ hfits
  · cases h

theorem updateTransfer_none {id : String} {texts : List (ℕ × Option String)}
    {response : Option Json} {guard : BingxTransfer → Bool} {set : BingxTransfer → BingxTransfer}
    {eff : Effect Write Row Unit} (hx : d.bingxTransfers.find? id = none)
    (h : updateTransfer id texts response guard set locked d = .ok eff) :
    eff = { value := () } := by
  unfold updateTransfer at h
  split at h
  · simp only [hx] at h
    cases h
    rfl
  · cases h

theorem updateTransfers_ok {condition : BingxTransfer → Bool}
    {set : BingxTransfer → BingxTransfer} {eff : Effect Write Row ℕ}
    (h : updateTransfers condition set locked d = .ok eff) :
    eff = {
      value := (d.bingxTransfers.rows.filter condition).length
      writes := (d.bingxTransfers.rows.filter condition).map fun y => .bingxTransfer (set y) } :=
  (Except.ok.inj h).symm

theorem updateNextTransfer_ok {now : Timestamp} {staleCutoff : Option Timestamp}
    {retryCutoff : Timestamp} {eff : Effect Write Row (Option ClaimedTransfer)}
    (h : updateNextTransfer now staleCutoff retryCutoff locked d = .ok eff) :
    eff = { value := none } ∨
      ∃ y ∈ d.bingxTransfers.rows, claimable now staleCutoff retryCutoff d y = true ∧
        eff = {
          value := some (returning (claim now y))
          writes := [.bingxTransfer (claim now y)]
          locks := [(.bingxTransfer y.id, .update)] } := by
  unfold updateNextTransfer at h
  simp only at h
  split at h
  · cases h; exact .inl rfl
  · next y hy =>
    have hmem := List.argmin_mem (Option.mem_def.mpr hy)
    rw [List.mem_filter, Bool.and_eq_true] at hmem
    cases h
    exact .inr ⟨y, hmem.1, hmem.2.1, rfl⟩

theorem insertFraudAlert_ok {a : FraudAlert} {eff : Effect Write Row Unit}
    (h : insertFraudAlert a locked d = .ok eff) :
    eff = { value := (), writes := [.fraudAlert a], locks := keyShare a.transactionId } := by
  unfold insertFraudAlert at h
  split at h
  · cases h
  · split at h
    · cases h; rfl
    · cases h

theorem storable_of_insertFraudAlert {a : FraudAlert} {eff : Effect Write Row Unit}
    (h : insertFraudAlert a locked d = .ok eff) : storableDetails a.metadata = true := by
  unfold insertFraudAlert at h
  split at h
  · cases h
  · next hs => simpa using hs

theorem insertAuditLog_ok {e : AuditEntry} {eff : Effect Write Row Unit}
    (h : insertAuditLog e locked d = .ok eff) :
    eff = { value := (), writes := [.audit e], locks := keyShare e.transactionId } := by
  unfold insertAuditLog at h
  split at h
  · cases h
  · split at h
    · cases h; rfl
    · cases h

theorem upsertKyc_ok {r : KycRecord} {eff : Effect Write Row Unit}
    (hk : d.kycRecords.find? r.transactionId = none) (h : upsertKyc r locked d = .ok eff) :
    eff = { value := (), writes := [.kycRecord r], locks := keyShare (some r.transactionId) } := by
  unfold upsertKyc at h
  split at h
  · cases h
  · simp only [hk] at h
    split at h
    · cases h; rfl
    · cases h

theorem fits_of_upsertKyc {r : KycRecord} {eff : Effect Write Row Unit}
    (h : upsertKyc r locked d = .ok eff) :
    fits [(255, some r.payerName), (64, some r.payerPhone)] = true := by
  unfold upsertKyc at h
  split at h
  · cases h
  · next hfits => simpa using hfits

theorem insertTransfer_ok {x : BingxTransfer} {eff : Effect Write Row Unit}
    (hk : ∀ y ∈ d.bingxTransfers.rows, y.idempotencyKey ≠ x.idempotencyKey)
    (h : insertTransfer x locked d = .ok eff) :
    d.bingxTransfers.find? x.id = none ∧
      eff = {
        value := (), writes := [.bingxTransfer x], locks := keyShare (some x.transactionId) } := by
  unfold insertTransfer at h
  split at h
  · next hany =>
    obtain ⟨y, hy, he⟩ := List.any_eq_true.mp hany
    exact absurd (by simpa using he) (hk y hy)
  · split at h
    · cases h
    · next hs =>
      split at h
      · cases h; exact ⟨by simpa using hs, rfl⟩
      · cases h

theorem insertTransaction_ok {n : NewTransaction} {eff : Effect Write Row Unit}
    (h : insertTransaction n locked d = .ok eff) :
    ∃ t, StoredAs n t ∧ d.transactions.find? t.id = none ∧
      (∃ u, d.users.find? t.userId = some u) ∧
      eff = { value := (), writes := [.transaction t] } := by
  unfold insertTransaction at h
  split at h
  · next r u c hr hu hc =>
    split at h
    · cases h
    next hfits =>
    split at h
    · split at h
      · split at h
        · cases h
        · next hid =>
          split at h
          · next hfk =>
            rw [Bool.and_eq_true, Option.isSome_iff_exists] at hfk
            cases h
            exact ⟨_,
              ⟨rfl, rfl, rfl, hr, hu, hc, rfl, rfl, rfl, rfl, rfl, rfl, by simpa using hfits⟩,
              by simpa using hid, hfk.1, rfl⟩
          · cases h
      · cases h
    · cases h
  · cases h

theorem updatePromoReserve_ok {code : String} {now : Timestamp}
    {eff : Effect Write Row (Option (String × Numeric 2))}
    (h : updatePromoReserve code now locked d = .ok eff) :
    eff = { value := none } ∨
      ∃ p ∈ d.promoCodes.rows, p.code = code ∧ p.isActive = true ∧
        (∀ m ∈ p.maxUses, (p.usedCount : ℤ) < m) ∧
        eff = {
          value := some (p.id, p.discountPercent)
          writes := [.promoCode { p with usedCount := p.usedCount + 1 }] } := by
  unfold updatePromoReserve at h
  split at h
  · split at h
    · cases h; exact .inl rfl
    · next p hp =>
      have husable := List.find?_some hp
      simp only [Usable, Bool.and_eq_true, decide_eq_true_eq] at husable
      obtain ⟨⟨⟨hcode, hactive⟩, -⟩, hmax⟩ := husable
      split at h
      · cases h
        refine .inr ⟨p, List.mem_of_find?_eq_some hp, hcode, hactive, fun m hm => ?_, rfl⟩
        simpa [Option.mem_def.mp hm] using hmax
      · cases h
  · cases h

theorem upsertBlacklist_ok {e : BlacklistEntry} {eff : Effect Write Row Unit}
    (h : upsertBlacklist e locked d = .ok eff) :
    eff = { value := (), writes := [.blacklist (blacklisted d e)] } := by
  unfold upsertBlacklist at h
  split at h
  · unfold blacklisted
    cases hf : d.blacklist.find? e.key <;> simp only [hf] at h <;> cases h <;> rfl
  · cases h

theorem insertBlacklist_ok {e : BlacklistEntry} {eff : Effect Write Row Unit}
    (h : insertBlacklist e locked d = .ok eff) :
    d.blacklist.find? e.key = none ∧ eff = { value := (), writes := [.blacklist e] } := by
  unfold insertBlacklist at h
  split at h
  · cases h
  split at h
  · cases h
  · next hnew =>
    cases h
    simp only [Bool.or_eq_true, not_or, Bool.not_eq_true, Option.isSome_eq_false_iff,
      Option.isNone_iff_eq_none] at hnew
    exact ⟨hnew.1, rfl⟩

theorem updateBlacklist_ok {id : String} {form : BlacklistForm} {eff : Effect Write Row Unit}
    (h : updateBlacklist id form locked d = .ok eff) :
    eff = { value := () } ∨ ∃ old, d.blacklist.find? old.key = some old ∧ old.id = id ∧
      ((form.entry id).key = old.key ∧
          eff = { value := (), writes := [.blacklist (form.entry id)] } ∨
        (form.entry id).key ≠ old.key ∧ d.blacklist.find? (form.entry id).key = none ∧
          eff = { value := (), writes := [.unblacklist old.key, .blacklist (form.entry id)] }) := by
  unfold updateBlacklist at h
  split at h
  · cases h
    exact .inl rfl
  · next old hold =>
    have hrow := Table.find?_of_mem (List.mem_of_find?_eq_some hold)
    have hid : old.id = id := by simpa using List.find?_some hold
    dsimp only at h
    split at h
    · cases h
    split at h
    · next hkey =>
      cases h
      exact .inr ⟨old, hrow, hid, .inl ⟨hkey, rfl⟩⟩
    · next hkey =>
      split at h
      · cases h
      · next hfree =>
        cases h
        exact .inr ⟨old, hrow, hid, .inr ⟨hkey, by simpa using hfree, rfl⟩⟩

theorem deleteBlacklist_ok {id : String} {eff : Effect Write Row Bool}
    (h : deleteBlacklist id locked d = .ok eff) :
    eff = { value := false } ∨ ∃ e, d.blacklist.find? e.key = some e ∧ e.id = id ∧
      eff = { value := true, writes := [.unblacklist e.key] } := by
  unfold deleteBlacklist at h
  split at h
  · cases h
    exact .inl rfl
  · next e he =>
    cases h
    exact .inr ⟨e, Table.find?_of_mem (List.mem_of_find?_eq_some he),
      by simpa using List.find?_some he, rfl⟩

theorem updatePromoCode_ok {id : String} {form : PromoCodeForm} {eff : Effect Write Row Unit}
    (h : updatePromoCode id form locked d = .ok eff) :
    eff = { value := () } ∨ ∃ p p', d.promoCodes.find? id = some p ∧ p'.id = p.id ∧
      p'.usedCount = p.usedCount ∧ p'.maxUses = form.maxUses ∧
      eff = { value := (), writes := [.promoCode p'] } := by
  unfold updatePromoCode at h
  split at h
  · cases h
    exact .inl rfl
  · next p hp =>
    split at h
    · cases h
    split at h
    · cases h
    split at h
    · cases h
      refine .inr ⟨p, _, hp, ?_, ?_, ?_, rfl⟩ <;> rfl
    · cases h

theorem updatePromoRelease_ok {transactionId : String} {t : Transaction}
    {eff : Effect Write Row Unit} (ht : d.transactions.find? transactionId = some t)
    (h : updatePromoRelease transactionId locked d = .ok eff) :
    eff = { value := (), writes := releaseWrites d t } := by
  unfold updatePromoRelease at h
  simp only [ht, Option.bind_some] at h
  unfold releaseWrites
  split at h
  · next hp => cases h; simp only [hp]
  · next p hp =>
    split at h <;> next hu => cases h; simp only [hp, hu, if_true, if_false]

end

end Sql

end MoneyWay
