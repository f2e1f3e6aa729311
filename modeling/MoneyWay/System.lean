import MoneyWay.Library.ReadCommitted.System
import MoneyWay.Admin
import MoneyWay.Worker

/-!
# The running system

Deposits, webhooks, workers and resets as sessions over one database, with BingX
outside of it. A request that has been sent is on its way until BingX accepts it or
it is lost, whatever the worker that sent it is told or does meanwhile.
-/

set_option autoImplicit false

namespace MoneyWay

open Keyed ReadCommitted Python

/-- The code a job runs. -/
def program (unicode : Unicode) : Job → Handler Result
  | .createDeposit settings r => do return .deposit (← createDeposit unicode settings r)
  | .sbpPaymentWebhook payload holdMinutes => do
    handleSbpPaymentWebhook payload holdMinutes
    return .accepted
  | .sbpChargebackWebhook payload => do
    handleChargebackWebhook payload
    return .accepted
  | .processTransfer settings => do
    return .processed (← processNextBingxTransfer unicode settings)
  | .resetOnHold transferId => do
    resetOnHold transferId
    return .accepted
  | .addBlacklistEntry r => do return .added (← addBlacklistEntry unicode r)
  | .manageBlacklist change => do
    manageBlacklist change
    return .accepted
  | .editPromoCode id form => do
    editPromoCode id form
    return .accepted
  | .transactionDossier adminId transactionId => do
    return .dossier (← transactionDossier adminId transactionId)

namespace Job

def autocommit : Job → Bool
  | .processTransfer settings => settings.autocommit
  | _ => false

/-- The whole job is one transaction. -/
def Together (j : Job) : Prop := j.autocommit = false

instance (j : signature.Job) : Decidable (Together j) :=
  inferInstanceAs (Decidable (autocommit j = false))

theorem Together.ne_true {j : Job} (h : j.Together) : j.autocommit ≠ true := by
  rw [Together] at h
  rw [h]
  exact Bool.false_ne_true

end Job

namespace Bingx

/-- The request has reached the network. -/
def send (q : TransferRequest) (b : Bingx) : Bingx := { b with wire := b.wire ++ [q] }

/-- BingX accepts at most one request for each `transferClientId`. -/
def event (b : Bingx) : BingxEvent → Option Bingx
  | .accept q =>
    if q ∈ b.wire ∧ ∀ a ∈ b.accepted, a.idempotencyKey ≠ q.idempotencyKey then
      some { b with wire := b.wire.erase q, accepted := b.accepted ++ [q] }
    else none
  | .drop q => if q ∈ b.wire then some { b with wire := b.wire.erase q } else none
  | .tick delta => some { b with now := b.now + delta }

variable {b b' : Bingx} {e : BingxEvent} {q : TransferRequest}

/-- What is accepted was accepted before, or arrives now. -/
theorem accepted_event (h : b.event e = some b') (hq : q ∈ b'.accepted) :
    q ∈ b.accepted ∨ e = .accept q ∧ q ∈ b.wire := by
  cases e with
  | accept r =>
    simp only [event] at h
    split at h
    · next hr =>
      cases h
      rcases List.mem_append.mp hq with hq | hq
      · exact .inl hq
      · obtain rfl := List.mem_singleton.mp hq
        exact .inr ⟨rfl, hr.1⟩
    · cases h
  | drop r =>
    simp only [event] at h
    split at h
    · cases h
      exact .inl hq
    · cases h
  | tick delta =>
    cases h
    exact .inl hq

/-- Nothing is put on the way by what happens outside. -/
theorem wire_event (h : b.event e = some b') (hq : q ∈ b'.wire) : q ∈ b.wire := by
  cases e with
  | accept r | drop r =>
    simp only [event] at h
    split at h
    · cases h
      exact List.mem_of_mem_erase hq
    · cases h
  | tick delta =>
    cases h
    exact hq

end Bingx

/-- The system, for an interpreter with this Unicode database. -/
def bank (unicode : Unicode) : System signature where
  program := program unicode
  autocommit := Job.autocommit
  send := Bingx.send
  now := Bingx.now
  event := fun e b => b.event e

end MoneyWay
