import MoneyWay.Library.Decimal
import MoneyWay.Library.Json
import MoneyWay.Library.KeyedTable
import MoneyWay.Library.ReadCommitted.Program

/-!
# The database

The tables of the payment flow with their checks, and what a write leaves in them.
Times are in microseconds. A `NUMERIC(p, s)` value is a whole number of units of
`10 ^ -s`: amounts in roubles are kopecks, amounts in USDT are in `10 ^ -8`.

## Main definitions

- `Transaction`, `BingxTransfer`, `KycRecord`, … — the rows
- `Database` — the tables, with append-only alerts, audit log and notifications
- `Write`, `Row` — row images and the rows that can be locked
-/

set_option autoImplicit false

namespace MoneyWay

open Keyed ReadCommitted Python

/-- A point in time, in microseconds. -/
abbrev Timestamp := ℤ

/-- A value of a `NUMERIC` column with this many decimal places. -/
abbrev Numeric (_scale : ℕ) := ℤ

/-- The value as Python reads it. -/
def Numeric.toDecimal {s : ℕ} (n : Numeric s) : Decimal := .ofUnits n (-s)

/-- Store a number in a `NUMERIC(p, s)` column: rounded half away from zero, `none`
when it overflows the column. -/
def toNumeric (p s : ℕ) (d : Decimal) : Option (Numeric s) :=
  let n : ℤ :=
    if -s ≤ d.exponent then d.coefficient * 10 ^ (d.exponent + s).toNat
    else
      let k := (-s - d.exponent).toNat
      (d.coefficient * 2 + 10 ^ k) / (2 * 10 ^ k)
  if n < 10 ^ p then some (if d.negative then -n else n) else none

/-- A number with as many places as the column is stored as it is. -/
theorem sameValue_of_toNumeric {p s : ℕ} {d : Decimal} {n : Numeric s}
    (h : toNumeric p s d = some n) (he : d.exponent = -s) : n.toDecimal.SameValue d := by
  unfold toNumeric at h
  dsimp only at h
  rw [he, if_pos (le_refl _), Int.add_left_neg, Int.toNat_zero, Int.pow_zero, Int.mul_one] at h
  split at h
  · have hn := Option.some.inj h
    unfold Decimal.SameValue Numeric.toDecimal
    rw [he]
    simp only [Decimal.scaled, Decimal.ofUnits, min_self, he, Int.sub_self, Int.toNat_zero,
      Int.pow_zero, Int.mul_one, decide_eq_true_eq]
    rw [hn]
    split <;> omega
  · cases h

structure User where
  id : String
  email : String
  bingxUid : Option String
  email_nonempty : email ≠ "" := by decide
  email_length : email.length ≤ 254 := by decide
  email_storable : storableText email = true := by decide

structure PromoCode where
  id : String
  code : String
  discountPercent : Numeric 2
  maxUses : Option ℤ
  usedCount : ℕ
  isActive : Bool
  expiresAt : Option Timestamp
  discount_range : 0 ≤ discountPercent ∧ discountPercent ≤ 10000 := by decide

inductive TransactionStatus where
  | pending
  | paid
  | completed
  | error
  | failed
  | chargeback
  deriving DecidableEq, Repr

/-- A deposit. The check `amounts_positive` of the table and the width of `bingx_uid`
are part of the row. -/
structure Transaction where
  id : String
  userId : String
  promoCodeId : Option String
  amountRub : Numeric 2
  amountUsdt : Numeric 8
  commission : Numeric 2
  status : TransactionStatus
  sbpPaymentId : Option String
  bingxTransferId : Option String
  bingxUid : String
  payerIp : Option String
  deviceFingerprint : Option String
  createdAt : Timestamp
  updatedAt : Timestamp
  completedAt : Option Timestamp
  amounts_positive : 0 < amountRub ∧ 0 < amountUsdt ∧ 0 ≤ commission := by decide
  bingxUid_length : bingxUid.length ≤ 64 := by decide

/-- One record for each transaction: `transactionId` is unique. -/
structure KycRecord where
  transactionId : String
  payerName : String
  payerPhone : String
  amountRub : Numeric 2
  createdAt : Timestamp

inductive TransferStatus where
  | pending
  | processing
  | completed
  | error
  | onHold
  | failed
  | cancelled
  deriving DecidableEq, Repr

/-- A payout task. The check `amount_positive` of the table is part of the row. -/
structure BingxTransfer where
  id : String
  transactionId : String
  idempotencyKey : String
  bingxTransferId : Option String
  recipientUid : String
  amountUsdt : Numeric 8
  status : TransferStatus
  attemptNumber : ℕ
  scheduledAt : Timestamp
  bingxResponse : Option Json
  createdAt : Timestamp
  updatedAt : Timestamp
  amount_positive : 0 < amountUsdt := by decide

inductive BlacklistType where
  | email
  | uid
  | ip
  deriving DecidableEq, Repr

structure BlacklistEntry where
  id : String
  type : BlacklistType
  value : String
  reason : String
  comment : Option String
  createdAt : Timestamp

/-- `(type, value)` is unique. -/
def BlacklistEntry.key (e : BlacklistEntry) : BlacklistType × String := (e.type, e.value)

/-- A value inside a JSON payload, before it is written out as text. -/
inductive Detail where
  | none
  | text (s : String)
  | flag (b : Bool)
  | count (n : ℕ)
  | amount (d : Decimal)
  | time (t : Timestamp)
  deriving DecidableEq, Repr

/-- A JSON payload, field by field. -/
abbrev Details := List (String × Detail)

namespace Detail

def ofText? (s : Option String) : Detail := s.elim .none .text

def ofTime? (t : Option Timestamp) : Detail := t.elim .none .time

def storable : Detail → Bool
  | .text s => storableText s
  | _ => true

@[simp] theorem storable_text (s : String) : (Detail.text s).storable = storableText s := rfl

@[simp] theorem storable_count (n : ℕ) : (Detail.count n).storable = true := rfl

@[simp] theorem storable_amount (d : Decimal) : (Detail.amount d).storable = true := rfl

@[simp] theorem storable_time (t : Timestamp) : (Detail.time t).storable = true := rfl

@[simp] theorem storable_ofText? (o : Option String) :
    (Detail.ofText? o).storable = o.all storableText := by cases o <;> rfl

@[simp] theorem storable_ofTime? (o : Option Timestamp) : (Detail.ofTime? o).storable = true := by
  cases o <;> rfl

end Detail

/-- The payload can be stored as `jsonb`. -/
def storableDetails (payload : Details) : Bool := payload.all fun field => field.2.storable

inductive AlertType where
  | amountMismatch
  | chargeback
  | lowBalance
  | deviceReuse
  deriving DecidableEq, Repr

inductive AlertStatus where
  | opened
  deriving DecidableEq, Repr

structure FraudAlert where
  userId : Option String
  transactionId : Option String
  alertType : AlertType
  metadata : Details
  status : AlertStatus := .opened
  createdAt : Timestamp
  deriving DecidableEq, Repr

inductive EventType where
  | depositCreated
  | sbpPaymentUnmatched
  | sbpPaymentAmountMismatch
  | sbpPaymentFailed
  | sbpPaymentPaid
  | chargebackUnmatched
  | chargebackIneligible
  | chargebackReceived
  | transferCompleted
  | transferError
  | transferOnHold
  | transferFailed
  | dossierViewed
  deriving DecidableEq, Repr

structure AuditEntry where
  eventType : EventType
  userId : Option String
  transactionId : Option String
  payload : Option Details
  ipAddress : Option String
  deviceFingerprint : Option String
  userAgent : Option String
  createdAt : Timestamp
  deriving DecidableEq, Repr

structure Database where
  users : Table User.id
  promoCodes : Table PromoCode.id
  transactions : Table Transaction.id
  kycRecords : Table KycRecord.transactionId
  bingxTransfers : Table BingxTransfer.id
  blacklist : Table BlacklistEntry.key
  fraudAlerts : List FraudAlert
  auditLog : List AuditEntry
  notifications : List String

/-- The row image a statement leaves. -/
inductive Write where
  | promoCode (r : PromoCode)
  | transaction (r : Transaction)
  | kycRecord (r : KycRecord)
  | bingxTransfer (r : BingxTransfer)
  | blacklist (r : BlacklistEntry)
  | unblacklist (key : BlacklistType × String)
  | fraudAlert (r : FraudAlert)
  | audit (r : AuditEntry)
  | notify (channel : String)

/-- A row that can be locked. -/
inductive Row where
  | promoCode (id : String)
  | transaction (id : String)
  | kycRecord (transactionId : String)
  | bingxTransfer (id : String)
  | blacklist (key : BlacklistType × String)
  deriving DecidableEq, Repr

namespace Write

/-- The row a write locks; logs are only appended to. -/
@[simp] def target : Write → Option Row
  | .promoCode r => some (.promoCode r.id)
  | .transaction r => some (.transaction r.id)
  | .kycRecord r => some (.kycRecord r.transactionId)
  | .bingxTransfer r => some (.bingxTransfer r.id)
  | .blacklist r => some (.blacklist r.key)
  | .unblacklist key => some (.blacklist key)
  | .fraudAlert _ | .audit _ | .notify _ => none

/-- Only entries of the blacklist are ever deleted. -/
def removes : Write → Bool
  | .unblacklist _ => true
  | _ => false

/-- The transaction a write stores. -/
def transaction? : Write → Option Transaction
  | .transaction t => some t
  | _ => none

/-- What a write appends to the alerts. -/
def alert? : Write → Option FraudAlert
  | .fraudAlert a => some a
  | _ => none

/-- What a write appends to the audit log. -/
def entry? : Write → Option AuditEntry
  | .audit e => some e
  | _ => none

end Write

namespace Database

@[simp] def apply (w : Write) (d : Database) : Database :=
  match w with
  | .promoCode r => { d with promoCodes := d.promoCodes.put r }
  | .transaction r => { d with transactions := d.transactions.put r }
  | .kycRecord r => { d with kycRecords := d.kycRecords.put r }
  | .bingxTransfer r => { d with bingxTransfers := d.bingxTransfers.put r }
  | .blacklist r => { d with blacklist := d.blacklist.put r }
  | .unblacklist key => { d with blacklist := d.blacklist.erase key }
  | .fraudAlert r => { d with fraudAlerts := d.fraudAlerts ++ [r] }
  | .audit r => { d with auditLog := d.auditLog ++ [r] }
  | .notify channel => { d with notifications := d.notifications ++ [channel] }

/-- The image of a row, `none` when there is no such row. -/
def row (d : Database) : Row → Option Write
  | .promoCode id => (d.promoCodes.find? id).map .promoCode
  | .transaction id => (d.transactions.find? id).map .transaction
  | .kycRecord id => (d.kycRecords.find? id).map .kycRecord
  | .bingxTransfer id => (d.bingxTransfers.find? id).map .bingxTransfer
  | .blacklist key => (d.blacklist.find? key).map .blacklist

/-- A write leaves all rows but its own as they are. -/
theorem row_apply (w : Write) (r : Row) (d : Database) (h : w.target ≠ some r) :
    (d.apply w).row r = d.row r := by
  cases w <;> cases r <;> try rfl
  all_goals
    simp only [Write.target, ne_eq, Option.some.injEq, Row.promoCode.injEq,
      Row.transaction.injEq, Row.kycRecord.injEq, Row.bingxTransfer.injEq,
      Row.blacklist.injEq] at h
    first
      | simp only [apply, row, Table.find?_put_ne _ h]
      | simp only [apply, row, Table.find?_erase, if_neg h]

/-- A write leaves its own image in its row, or no row. -/
theorem row_apply_self (w : Write) (r : Row) (d : Database) (h : w.target = some r) :
    (d.apply w).row r = if w.removes then none else some w := by
  cases w <;> simp only [Write.target, Option.some.injEq, reduceCtorEq] at h <;> subst h <;>
    simp [row, Write.removes, Table.find?_put_self, Table.find?_erase]

end Database

instance : Store Database Write Row where
  apply := fun w d => d.apply w
  target := Write.target
  removes := Write.removes
  row := fun r d => d.row r
  row_apply := Database.row_apply
  row_apply_self := Database.row_apply_self

@[simp] theorem store_apply (w : Write) (d : Database) : Store.apply w d = d.apply w := rfl

@[simp] theorem store_target (w : Write) : Store.target (D := Database) w = w.target := rfl

@[simp] theorem store_row (r : Row) (d : Database) : Store.row r d = d.row r := rfl

namespace Database

variable {d d' : Database} {id : String}

theorem row_transaction (h : d'.row (.transaction id) = d.row (.transaction id)) :
    d'.transactions.find? id = d.transactions.find? id :=
  Option.map_injective (fun _ _ => Write.transaction.inj) h

theorem row_bingxTransfer (h : d'.row (.bingxTransfer id) = d.row (.bingxTransfer id)) :
    d'.bingxTransfers.find? id = d.bingxTransfers.find? id :=
  Option.map_injective (fun _ _ => Write.bingxTransfer.inj) h

theorem row_kycRecord (h : d'.row (.kycRecord id) = d.row (.kycRecord id)) :
    d'.kycRecords.find? id = d.kycRecords.find? id :=
  Option.map_injective (fun _ _ => Write.kycRecord.inj) h

theorem row_promoCode (h : d'.row (.promoCode id) = d.row (.promoCode id)) :
    d'.promoCodes.find? id = d.promoCodes.find? id :=
  Option.map_injective (fun _ _ => Write.promoCode.inj) h

theorem row_blacklist {key : BlacklistType × String}
    (h : d'.row (.blacklist key) = d.row (.blacklist key)) :
    d'.blacklist.find? key = d.blacklist.find? key :=
  Option.map_injective (fun _ _ => Write.blacklist.inj) h

/-- A row that no write targets stays. -/
theorem row_untouched {ws : List Write} {r : Row} (h : ∀ w ∈ ws, w.target ≠ some r) :
    (replay ws d).row r = d.row r := row_replay (D := Database) h

/-- A row is what the last write to it has left. -/
theorem row_written_last {ws vs : List Write} {w : Write} {r : Row} (ht : w.target = some r)
    (hkeep : w.removes = false) (h : ∀ v ∈ vs, v.target ≠ some r) :
    (replay (ws ++ w :: vs) d).row r = some w :=
  row_replay_last (D := Database) ht hkeep h

/-- No write removes a row outside the blacklist. -/
theorem removes_eq_false {w : Write} {r : Row} (ht : w.target = some r)
    (hr : ∀ key, r ≠ .blacklist key) : w.removes = false := by
  cases w with
  | unblacklist key => exact absurd (Option.some.inj ht).symm (hr key)
  | _ => rfl

theorem isSome_row_of_ne_blacklist {ws : List Write} {r : Row} (hr : ∀ key, r ≠ .blacklist key)
    (h : (d.row r).isSome = true) : ((replay ws d).row r).isSome = true :=
  isSome_row_replay (D := Database) (fun _ _ ht => removes_eq_false ht hr) h

/-- A transaction after a list of writes has been written or was there before. -/
theorem transaction_replay {ws : List Write} {t : Transaction}
    (h : (replay ws d).transactions.find? id = some t) :
    .transaction t ∈ ws ∧ t.id = id ∨
      d.transactions.find? id = some t ∧ ∀ t', .transaction t' ∈ ws → t'.id ≠ id := by
  have hr : Store.row (.transaction id) (replay ws d) = some (.transaction t) := by
    simp only [store_row, row, h, Option.map_some]
  rcases row_replay_cases hr with ⟨hw, ht⟩ | ⟨hd, hn⟩
  · exact .inl ⟨hw, by simpa [Write.target] using ht⟩
  · refine .inr ⟨by simpa [row] using hd, fun t' ht' he => hn _ ht' ?_⟩
    simp [Write.target, he]

theorem transfer_replay {ws : List Write} {x : BingxTransfer}
    (h : (replay ws d).bingxTransfers.find? id = some x) :
    .bingxTransfer x ∈ ws ∧ x.id = id ∨
      d.bingxTransfers.find? id = some x ∧ ∀ x', .bingxTransfer x' ∈ ws → x'.id ≠ id := by
  have hr : Store.row (.bingxTransfer id) (replay ws d) = some (.bingxTransfer x) := by
    simp only [store_row, row, h, Option.map_some]
  rcases row_replay_cases hr with ⟨hw, ht⟩ | ⟨hd, hn⟩
  · exact .inl ⟨hw, by simpa [Write.target] using ht⟩
  · refine .inr ⟨by simpa [row] using hd, fun x' hx' he => hn _ hx' ?_⟩
    simp [Write.target, he]

theorem kycRecord_replay {ws : List Write} {k : KycRecord}
    (h : (replay ws d).kycRecords.find? id = some k) :
    .kycRecord k ∈ ws ∧ k.transactionId = id ∨
      d.kycRecords.find? id = some k ∧ ∀ k', .kycRecord k' ∈ ws → k'.transactionId ≠ id := by
  have hr : Store.row (.kycRecord id) (replay ws d) = some (.kycRecord k) := by
    simp only [store_row, row, h, Option.map_some]
  rcases row_replay_cases hr with ⟨hw, ht⟩ | ⟨hd, hn⟩
  · exact .inl ⟨hw, by simpa [Write.target] using ht⟩
  · refine .inr ⟨by simpa [row] using hd, fun k' hk' he => hn _ hk' ?_⟩
    simp [Write.target, he]

theorem promoCode_replay {ws : List Write} {p : PromoCode}
    (h : (replay ws d).promoCodes.find? id = some p) :
    .promoCode p ∈ ws ∧ p.id = id ∨ ∃ p', d.promoCodes.find? id = some p' := by
  have hr : Store.row (.promoCode id) (replay ws d) = some (.promoCode p) := by
    simp only [store_row, row, h, Option.map_some]
  rcases row_replay_cases hr with ⟨hw, ht⟩ | ⟨hd, -⟩
  · exact .inl ⟨hw, by simpa [Write.target] using ht⟩
  · exact .inr ⟨p, by simpa [row] using hd⟩

/-- Writes keep every transaction in the table. -/
theorem exists_transaction_replay (ws : List Write) {t : Transaction}
    (h : d.transactions.find? id = some t) :
    ∃ t', (replay ws d).transactions.find? id = some t' := by
  have hr : ((replay ws d).row (.transaction id)).isSome = true :=
    isSome_row_of_ne_blacklist nofun (by simp [row, h])
  simpa [row, Option.isSome_iff_exists] using hr

theorem exists_transfer_replay (ws : List Write) {x : BingxTransfer}
    (h : d.bingxTransfers.find? id = some x) :
    ∃ x', (replay ws d).bingxTransfers.find? id = some x' := by
  have hr : ((replay ws d).row (.bingxTransfer id)).isSome = true :=
    isSome_row_of_ne_blacklist nofun (by simp [row, h])
  simpa [row, Option.isSome_iff_exists] using hr

/-- Tables that are not written stay. -/
theorem transactions_replay {ws : List Write} (h : ∀ t, .transaction t ∉ ws) :
    (replay ws d).transactions = d.transactions := by
  induction ws generalizing d with
  | nil => rfl
  | cons w ws ih =>
    rw [replay_cons, ih fun t ht => h t (List.mem_cons_of_mem _ ht)]
    cases w with
    | transaction t => exact absurd List.mem_cons_self (h t)
    | _ => rfl

theorem kycRecords_replay {ws : List Write} (h : ∀ k, .kycRecord k ∉ ws) :
    (replay ws d).kycRecords = d.kycRecords := by
  induction ws generalizing d with
  | nil => rfl
  | cons w ws ih =>
    rw [replay_cons, ih fun k hk => h k (List.mem_cons_of_mem _ hk)]
    cases w with
    | kycRecord k => exact absurd List.mem_cons_self (h k)
    | _ => rfl

theorem promoCodes_replay {ws : List Write} (h : ∀ p, .promoCode p ∉ ws) :
    (replay ws d).promoCodes = d.promoCodes := by
  induction ws generalizing d with
  | nil => rfl
  | cons w ws ih =>
    rw [replay_cons, ih fun p hp => h p (List.mem_cons_of_mem _ hp)]
    cases w with
    | promoCode p => exact absurd List.mem_cons_self (h p)
    | _ => rfl

/-- An entry of the blacklist that is not written stays. -/
theorem blacklist_replay {ws : List Write} {k : BlacklistType × String}
    (h : ∀ w ∈ ws, w.target ≠ some (.blacklist k)) :
    (replay ws d).blacklist.find? k = d.blacklist.find? k := row_blacklist (row_untouched h)

/-- Logs are appended to in the order of the writes. -/
theorem fraudAlerts_replay (ws : List Write) :
    (replay ws d).fraudAlerts = d.fraudAlerts ++ ws.filterMap Write.alert? := by
  induction ws generalizing d with
  | nil => simp
  | cons w ws ih =>
    rw [replay_cons, ih]
    cases w <;> simp [List.filterMap_cons, Write.alert?]

theorem auditLog_replay (ws : List Write) :
    (replay ws d).auditLog = d.auditLog ++ ws.filterMap Write.entry? := by
  induction ws generalizing d with
  | nil => simp
  | cons w ws ih =>
    rw [replay_cons, ih]
    cases w <;> simp [List.filterMap_cons, Write.entry?]

/-- No write touches the users. -/
theorem users_replay (ws : List Write) : (replay ws d).users = d.users := by
  induction ws generalizing d with
  | nil => rfl
  | cons w ws ih =>
    rw [replay_cons, ih]
    cases w <;> rfl

end Database

end MoneyWay
