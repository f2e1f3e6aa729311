import MoneyWay.Deposits

/-!
# The administrator's requests

What an administrator can do to the payment flow besides returning a transfer to the
queue: ban and lift bans by hand, edit a promo code, and look at the dossier of a transaction,
which is itself recorded.
-/

set_option autoImplicit false

namespace MoneyWay

open Keyed ReadCommitted Python Prog Sql

/-- How addresses are written in the database. -/
def normalizeEmail (unicode : Unicode) (email : String) : String :=
  unicode.lower (strip unicode email)

/-- The row of `add_blacklist_entry`: an address is normalised, another value only
stripped. -/
def blacklistEntry (unicode : Unicode) (r : BlacklistCreateRequest) (id : String)
    (now : Timestamp) : BlacklistEntry where
  id := id
  type := r.type
  value := if r.type = .email then normalizeEmail unicode r.value else strip unicode r.value
  reason := r.reason
  comment := r.comment
  createdAt := now

def addBlacklistEntry (unicode : Unicode) (r : BlacklistCreateRequest) : Handler String := do
  let entryId ← uuid
  let now ← Prog.now
  exec (upsertBlacklist (blacklistEntry unicode r entryId now))
  return entryId

def removeBlacklistEntry (blacklistId : String) : Handler Bool :=
  exec (deleteBlacklist blacklistId)

/-- A change of the blacklist by hand. -/
def manageBlacklist : BlacklistChange → Handler Unit
  | .create id form => exec (insertBlacklist (form.entry id))
  | .edit id form => exec (updateBlacklist id form)
  | .remove id => do
    if ← removeBlacklistEntry id then return
    else raise (.notFound "Blacklist entry not found")

def editPromoCode (id : String) (form : PromoCodeForm) : Handler Unit :=
  exec (updatePromoCode id form)

def getTransactionDossier (transactionId : String) : Handler (Option TransactionDossier) := do
  match ← exec (selectWithEmail transactionId) with
  | none => return none
  | some (transaction, email) =>
    let kyc ← exec (selectKyc transactionId)
    let transfer ← exec (selectTransfer transactionId)
    let fraudAlerts ← exec (selectAlerts transactionId)
    let audit ← exec (selectAudit transactionId)
    return some { transaction, email, kyc, transfer, fraudAlerts, audit }

def transactionDossier (adminId transactionId : String) : Handler TransactionDossier := do
  match ← getTransactionDossier transactionId with
  | none => raise (.notFound "Transaction not found")
  | some dossier =>
    -- who has looked at whose data
    writeAuditLog .dossierViewed (some adminId) (some transactionId) [] none none none
    return dossier

end MoneyWay
