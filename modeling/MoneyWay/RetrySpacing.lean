import Mathlib.Tactic.Ring
import MoneyWay.Library.ReadCommitted.Sending
import MoneyWay.Library.ReadCommitted.Stamps
import MoneyWay.Retries

/-!
# The time between attempts

A worker claims a transfer that it has tried before only once the backoff has gone by since the
last attempt was recorded. So every attempt on record puts the next request off by one backoff
more, whichever worker sends it.

## Main definitions

- `Job.Paced` — workers wait for a backoff
- `BingxTransfer.Spaced` — the attempts on record have taken their time

## Main results

- `sends_keep_pace` — no request before the backoffs of the attempts on record have gone by
-/

set_option autoImplicit false

namespace MoneyWay

open Keyed ReadCommitted Python Prog Sql

/-- A worker waits for at least `b` seconds before it tries again. -/
def Job.Paced (b : ℤ) : Job → Prop
  | .processTransfer settings =>
    settings.autocommit = false ∧ b ≤ settings.retryBackoffSeconds
  | _ => True

instance (b : ℤ) : DecidablePred (Job.Paced b)
  | .processTransfer settings =>
    inferInstanceAs (Decidable (settings.autocommit = false ∧ b ≤ settings.retryBackoffSeconds))
  | .createDeposit _ _ | .sbpPaymentWebhook _ _ | .sbpChargebackWebhook _ | .resetOnHold _
  | .addBlacklistEntry _ | .manageBlacklist _ | .editPromoCode _ _ | .transactionDossier _ _ =>
    isTrue trivial

theorem Job.Paced.together {b : ℤ} {j : Job} (h : j.Paced b) : j.Together := by
  cases j with
  | processTransfer settings => exact h.1
  | _ => rfl

/-- A pending transfer that is due, and whose last attempt is a backoff ago. -/
def BingxTransfer.Ready (settings : WorkerSettings) (now : Timestamp) (y : BingxTransfer) : Prop :=
  y.status = .pending → y.scheduledAt ≤ now ∧
    (y.attemptNumber = 0 ∨ y.updatedAt + seconds settings.retryBackoffSeconds ≤ now)

/-- A request is a worker's, for a stored transfer that is ready for it. -/
def PacedSends (j : Job) (q : TransferRequest) (s : Shared signature) : Prop :=
  ∃ settings, j = .processTransfer settings ∧
    ∃ y ∈ s.db.bingxTransfers.rows, y.request = q ∧ (y.status = .pending ∨ y.status = .processing) ∧
      y.Ready settings s.ext.now

/-! ## Requests -/

section Sends

variable {unicode : Unicode} {settings : WorkerSettings} {s : Shared signature}

/-- What a worker has when it has looked for a transfer. -/
def AfterClaim (settings : WorkerSettings) :
    Option ClaimedTransfer → Txn signature → Shared signature → Prop
  | none, x, _ => x.pending = [] ∧ x.calls = []
  | some transfer, x, s => ∃ y now, transfer = returning (claim now y) ∧ now ≤ s.ext.now ∧
      Working settings y now [] x s ∧ HoldsOnly y x ∧ x.calls = []

theorem wp_claimNextTransfer :
    (payments unicode).Wp (bank unicode) (.processTransfer settings)
      (claimNextTransfer settings.staleSeconds settings.retryBackoffSeconds)
      (AfterClaim settings) {} s := by
  refine wp_clock fun s₁ h₁ => wp_exec fun s₂ h₂ blocked eff hq => ⟨.first rfl, ?_⟩
  have hnow : s₁.ext.now ≤ s₂.ext.now := later_clock h₂
  generalize s₁.ext.now = now at hq hnow
  rcases updateNextTransfer_ok hq with rfl | ⟨y, hy, hclaim, rfl⟩
  · exact ⟨rfl, rfl⟩
  · have hfind := Table.find?_of_mem hy
    refine ⟨y, now, rfl, hnow, ⟨h₂.inv, ⟨hfind, due_of_claimable h₂.inv hy hnow hclaim, s₂, ?_,
      hfind, hclaim⟩, ?_, rfl⟩, ?_, rfl⟩
    · simp [Txn.executed]
    · simp [Txn.executed]
    · simp [HoldsOnly, Txn.executed, claim]

theorem silent_writeAuditLog {eventType : EventType} {userId transactionId : Option String}
    {payload : Details} {ipAddress deviceFingerprint userAgent : Option String} :
    (writeAuditLog eventType userId transactionId payload ipAddress deviceFingerprint
      userAgent).Silent := .now fun _ => .exec

theorem silent_follow {transfer : ClaimedTransfer} {route : Route} :
    (follow transfer route).Silent := by
  cases route with
  | complete bingxTransferId response =>
    exact .now fun _ => .bind .exec fun _ => .bind .exec fun _ => silent_writeAuditLog
  | hold payload =>
    exact .now fun _ => .bind .exec fun _ => .bind .exec fun _ => silent_writeAuditLog
  | fail payload =>
    exact .now fun _ => .bind .exec fun _ => .bind .exec fun _ => silent_writeAuditLog
  | retry payload =>
    by_cases hn : transfer.attemptNumber < maxTransferAttempts
    · simp only [follow, retryOrEscalateTransfer, hn, if_true]
      exact .now fun _ => .bind .exec fun _ => trivial
    · simp only [follow, retryOrEscalateTransfer, hn, if_false, if_true]
      exact .now fun _ => .bind .exec fun _ => .now fun _ => .bind .exec fun _ =>
        silent_writeAuditLog
  | uncaught => exact trivial

/-! The other jobs send nothing. -/

theorem silent_applyPromoCode {promoCode : Option String} {now : Timestamp} :
    (applyPromoCode promoCode now).Silent := by
  cases promoCode with
  | none => exact trivial
  | some code =>
    refine .bind .exec fun reserved => ?_
    cases reserved <;> exact trivial

theorem silent_recordDeposit {r : DepositCreateRequest} {transactionId : String}
    {promoCodeId : Option String} {commission amountUsdt : Decimal} {now : Timestamp} :
    (recordDeposit r transactionId promoCodeId commission amountUsdt now).Silent := by
  refine .bind .exec fun _ => .bind ?_ fun _ => .bind silent_writeAuditLog fun _ => trivial
  unfold checkDevice
  split
  · exact trivial
  · refine .bind .exec fun other => ?_
    cases other with
    | none => exact trivial
    | some other => exact .now fun _ => .exec

theorem silent_createDeposit {deposit : Settings} {r : DepositCreateRequest} :
    (createDeposit unicode deposit r).Silent := by
  refine .now fun _ => ?_
  split
  · exact trivial
  refine .bind (.bind .exec fun blocked => ?_) fun _ => .bind silent_applyPromoCode fun promo =>
    .now fun _ => .bind (fun _ => trivial) fun id => ?_
  · split <;> exact trivial
  split
  · exact trivial
  · split
    · exact trivial
    · exact silent_recordDeposit

theorem silent_handleSbpPaymentWebhook {p : SBPPaymentWebhook} {holdMinutes : ℤ} :
    (handleSbpPaymentWebhook p holdMinutes).Silent := by
  refine .bind .exec fun row => ?_
  cases row with
  | none => exact silent_writeAuditLog
  | some transaction =>
    dsimp only
    split
    · exact trivial
    cases p.status with
    | failed =>
      dsimp only
      split
      · exact trivial
      · exact .now fun _ => .bind .exec fun _ => .bind .exec fun _ => silent_writeAuditLog
    | paid =>
      dsimp only
      split
      · exact trivial
      split
      · split
        · exact trivial
        · split
          · exact .now fun _ => .bind .exec fun _ => silent_writeAuditLog
          · exact .now fun _ => .bind .exec fun _ => .bind (.now fun _ => .exec) fun _ =>
              .bind (.now fun _ => .bind (fun _ => trivial) fun _ => .bind .exec fun _ => .exec)
                fun _ => silent_writeAuditLog
      · exact trivial

theorem silent_blacklistChargeback {type : BlacklistType} {value reason : String} :
    (blacklistChargeback type value reason).Silent := by
  unfold blacklistChargeback
  split
  · exact trivial
  · exact .bind (fun _ => trivial) fun _ => .now fun _ => .exec

theorem silent_handleChargebackWebhook {p : SBPChargebackWebhook} :
    (handleChargebackWebhook p).Silent := by
  refine .bind .exec fun row => ?_
  cases row with
  | none => exact silent_writeAuditLog
  | some d =>
    dsimp only
    split
    · exact trivial
    split
    · exact silent_writeAuditLog
    · exact .now fun _ => .bind .exec fun _ => .bind .exec fun _ => .bind .exec fun _ =>
        .bind (.bind silent_blacklistChargeback fun _ => silent_blacklistChargeback) fun _ =>
          .bind .exec fun _ => silent_writeAuditLog

theorem silent_transactionDossier {adminId transactionId : String} :
    (transactionDossier adminId transactionId).Silent := by
  refine .bind (.bind .exec fun row => ?_) fun dossier => ?_
  · cases row with
    | none => exact trivial
    | some row =>
      exact .bind .exec fun _ => .bind .exec fun _ => .bind .exec fun _ => .bind .exec fun _ =>
        trivial
  · cases dossier with
    | none => exact trivial
    | some dossier => exact .bind silent_writeAuditLog fun _ => trivial

def Job.isWorker : Job → Bool
  | .processTransfer _ => true
  | _ => false

theorem silent_program (j : Job) (hj : j.isWorker = false) :
    ((bank unicode).program j).Silent := by
  cases j with
  | createDeposit deposit r => exact .bind silent_createDeposit fun _ => trivial
  | sbpPaymentWebhook p holdMinutes =>
    exact .bind silent_handleSbpPaymentWebhook fun _ => trivial
  | sbpChargebackWebhook p => exact .bind silent_handleChargebackWebhook fun _ => trivial
  | processTransfer settings => cases hj
  | resetOnHold transferId => exact .bind .exec fun _ => trivial
  | addBlacklistEntry r =>
    exact .bind (.bind (fun _ => trivial) fun _ => .now fun _ => .bind .exec fun _ => trivial)
      fun _ => trivial
  | manageBlacklist change =>
    refine .bind ?_ fun _ => trivial
    cases change with
    | create id form => exact .exec
    | edit id form => exact .exec
    | remove id =>
      refine .bind .exec fun removed => ?_
      cases removed <;> exact trivial
  | editPromoCode id form => exact .bind .exec fun _ => trivial
  | transactionDossier adminId transactionId =>
    exact .bind silent_transactionDossier fun _ => trivial

/-! A worker sends what is ready. -/

/-- What has been claimed was ready then. -/
theorem Claimed.ready {x : Txn signature} {y : BingxTransfer} {now : Timestamp}
    (h : Claimed x s settings y now) : y.Ready settings now := by
  intro hst
  obtain ⟨q, -, -, hclaim⟩ := h.claimed
  simp only [claimable, hst, Bool.and_eq_true, Bool.or_eq_true, decide_eq_true_eq,
    Option.any_eq_true, true_and, reduceCtorEq, false_and, and_false, exists_false,
    or_false] at hclaim
  obtain ⟨⟨hdue, hwait⟩, -⟩ := hclaim
  exact ⟨hdue, hwait.imp_right Int.add_le_of_le_sub_right⟩

theorem BingxTransfer.Ready.later {y : BingxTransfer} {now now' : Timestamp}
    (h : y.Ready settings now) (hle : now ≤ now') : y.Ready settings now' := fun hst =>
  ⟨(h hst).1.trans hle, (h hst).2.imp_right fun hwait => hwait.trans hle⟩

/-- The worker's code once more: up to its request, for what is known there. -/
theorem meets_processTransfer_paced :
    ((payments unicode).sending PacedSends).Ok (bank unicode) (.processTransfer settings)
      (program unicode (.processTransfer settings)) {} s := by
  refine Contract.Wp.bind (Contract.Wp.bind (Contract.Wp.mono (fun claimed x s hclaimed => ?_)
    (wp_claimNextTransfer.sending (.now fun _ => .exec))))
  cases claimed with
  | none => exact fun s' _ => .idle hclaimed.1 hclaimed.2
  | some transfer =>
    obtain ⟨y, now, rfl, hnow, hwork, honly, hcalls⟩ := hclaimed
    refine Contract.Wp.bind ?_
    simp only [createInternalTransfer]
    split
    · exact trivial
    refine fun s₁ h₁ => ?_
    have hlater := h₁.of_sending
    have hwork := hwork.later hlater
    have hsend := inv_send hlater.inv ⟨y, hwork.mem, rfl⟩
    have hlink : (payments unicode).Link s₁ ⟨s₁.db, s₁.ext.send y.request⟩ :=
      ⟨hlater.inv, hsend.1, hsend.2⟩
    obtain ⟨q, -, -, hclaim⟩ := hwork.claimed.claimed
    refine ⟨⟨settings, rfl, y, hwork.mem, rfl, status_of_claimable hclaim, ?_⟩,
      ⟨hlink.inv, hlink.guar, hlink.inv'⟩, fun a => ?_⟩
    · exact hwork.claimed.ready.later (hnow.trans (later_clock hlater))
    · have hwork := hwork.later (Contract.later_of_ext hlink)
      change Contract.Wp _ _ _ (recordOutcome unicode (returning (claim now y))
        (readAnswer unicode a) >>= fun _ => pure true) _ _ _
      refine Contract.Wp.bind ?_
      rw [recordOutcome_eq]
      have hone : (x.answered y.request a).calls = [(y.request, a)] := by
        simp [Txn.answered, hcalls]
      have hwork : Working settings y now [] (x.answered y.request a) _ :=
        ⟨hwork.inv, ⟨hwork.claimed.row, hwork.claimed.due, hwork.claimed.claimed⟩, hwork.lock,
          hwork.pending⟩
      have hfollow := wp_follow hwork honly hone (rfl : answerRoute unicode a = _)
      exact (hfollow.sending silent_follow).mono fun _ _ _ hpost s' hl =>
        hpost s' hl.of_sending

theorem pacing_valid (unicode : Unicode) :
    ((payments unicode).sending PacedSends).Valid (bank unicode) Job.Together := by
  refine (together_valid unicode).sending (fun _ h => h) fun j _ => ?_
  cases j with
  | processTransfer settings => exact .inr fun s _ => meets_processTransfer_paced
  | _ => exact .inl (silent_program _ rfl)

end Sends

/-! ## Times -/

/-- The time a worker writes down with a transfer. -/
def stampOf : Write → Option ℤ
  | .bingxTransfer y => some y.updatedAt
  | _ => none

section Stamps

variable {unicode : Unicode} {settings : WorkerSettings} {t : ℤ}

theorem stamps_updateTransfer {id : String} {texts : List (ℕ × Option String)}
    {response : Option Json} {guard : BingxTransfer → Bool} {set : BingxTransfer → BingxTransfer}
    (hset : ∀ y, (set y).updatedAt = t) :
    Prog.Stamps (σ := signature) stampOf (exec (updateTransfer id texts response guard set)) t := by
  refine Prog.Stamps.exec fun blocked d eff hq w hw u hu => ?_
  cases hf : d.bingxTransfers.find? id with
  | none =>
    rw [updateTransfer_none hf hq] at hw
    cases hw
  | some y =>
    rw [updateTransfer_ok hf hq] at hw
    by_cases hg : guard y = true
    · simp only [hg, if_true, List.mem_singleton] at hw
      rw [hw] at hu
      rw [← Option.some.inj hu]
      exact hset y
    · simp [hg] at hw

/-- A statement that writes no transfer writes down no time. -/
theorem stamps_exec {α : Type} {q : Statement α}
    (h : ∀ blocked d eff, q blocked d = .ok eff → ∀ w ∈ eff.writes, stampOf w = none) :
    Prog.Stamps (σ := signature) stampOf (exec q) t := by
  refine Prog.Stamps.exec fun blocked d eff hq w hw u hu => ?_
  rw [h blocked d eff hq w hw] at hu
  cases hu

theorem stamps_updatePaid {id : String} {texts : List (ℕ × Option String)}
    {set : Transaction → Transaction} : (updatePaid id texts set).Stamps stampOf t := by
  refine stamps_exec fun blocked d eff hq w hw => ?_
  cases hf : d.transactions.find? id with
  | none =>
    rw [updateTransaction_none hf hq] at hw
    cases hw
  | some t =>
    rw [updateTransaction_ok hf hq] at hw
    by_cases hg : t.status = .paid
    · simp only [hg, decide_true, if_true, List.mem_singleton] at hw
      rw [hw]
      rfl
    · simp [hg] at hw

theorem stamps_insertFraudAlert {alert : FraudAlert} :
    Prog.Stamps (σ := signature) stampOf (exec (insertFraudAlert alert)) t := by
  refine stamps_exec fun blocked d eff hq w hw => ?_
  rw [insertFraudAlert_ok hq] at hw
  rw [List.mem_singleton.mp hw]
  rfl

theorem stamps_writeAuditLog {eventType : EventType} {userId transactionId : Option String}
    {payload : Details} {ipAddress deviceFingerprint userAgent : Option String} :
    (writeAuditLog eventType userId transactionId payload ipAddress deviceFingerprint
      userAgent).Stamps stampOf t := by
  refine Prog.Stamps.now fun u hu => stamps_exec fun blocked d eff hq w hw => ?_
  rw [insertAuditLog_ok hq] at hw
  rw [List.mem_singleton.mp hw]
  rfl

theorem stamps_follow {transfer : ClaimedTransfer} {route : Route} :
    (follow transfer route).Stamps stampOf t := by
  cases route with
  | complete bingxTransferId response =>
    exact .now fun _ _ => .bind (stamps_updateTransfer fun _ => rfl) fun _ _ _ =>
      .bind stamps_updatePaid fun _ _ _ => stamps_writeAuditLog
  | hold payload =>
    exact .now fun _ _ => .bind (stamps_updateTransfer fun _ => rfl) fun _ _ _ =>
      .bind stamps_insertFraudAlert fun _ _ _ => stamps_writeAuditLog
  | fail payload =>
    exact .now fun _ _ => .bind (stamps_updateTransfer fun _ => rfl) fun _ _ _ =>
      .bind stamps_updatePaid fun _ _ _ => stamps_writeAuditLog
  | retry payload =>
    by_cases hn : transfer.attemptNumber < maxTransferAttempts
    · simp only [follow, retryOrEscalateTransfer, hn, if_true]
      exact .now fun _ _ => .bind (stamps_updateTransfer fun _ => rfl) fun _ _ _ => trivial
    · simp only [follow, retryOrEscalateTransfer, hn, if_false, if_true]
      exact .now fun _ _ => .bind (stamps_updateTransfer fun _ => rfl) fun _ _ _ =>
        .now fun _ _ => .bind stamps_updatePaid fun _ _ _ => stamps_writeAuditLog
  | uncaught => exact trivial

/-- Both the claim and what is recorded carry the time at which they were written. -/
theorem stamps_processTransfer :
    Prog.Stamps (σ := signature) stampOf (program unicode (.processTransfer settings)) t := by
  refine Prog.Stamps.bind (Prog.Stamps.bind (Prog.Stamps.now fun now _ => Prog.Stamps.exec
    fun blocked d eff hq w hw u hu => ?_) fun claimed t _ => ?_) fun _ _ _ => trivial
  · rcases updateNextTransfer_ok hq with rfl | ⟨y, -, -, rfl⟩
    · cases hw
    · rw [List.mem_singleton.mp hw] at hu
      exact (Option.some.inj hu).symm
  · cases claimed with
    | none => exact trivial
    | some transfer =>
      simp only [createInternalTransfer]
      split
      · exact trivial
      · intro a
        change Prog.Stamps _ (recordOutcome unicode transfer (readAnswer unicode a) >>=
          fun _ => pure true) _
        refine Prog.Stamps.bind ?_ fun _ _ _ => trivial
        rw [recordOutcome_eq]
        exact stamps_follow

end Stamps

/-! ## Histories -/

/-- Every attempt on record after the first one has waited for a backoff. -/
def BingxTransfer.Spaced (b : ℤ) (now : Timestamp) (y : BingxTransfer) : Prop :=
  y.status ≠ .cancelled → 1 ≤ y.attemptNumber →
    y.scheduledAt + (y.attemptNumber - 1) * seconds b ≤ y.updatedAt ∧ y.updatedAt ≤ now

section

variable {unicode : Unicode} {start : Shared signature} {tr : List (Transition signature)}
  {w : World signature} {b : ℤ}

theorem BingxTransfer.Spaced.later {y : BingxTransfer} {now now' : Timestamp}
    (h : y.Spaced b now) (hle : now ≤ now') : y.Spaced b now' := fun hst hn =>
  ⟨(h hst hn).1, (h hst hn).2.trans hle⟩

/-- A transfer that is ready has waited for as many backoffs as there are attempts on record. -/
theorem BingxTransfer.Ready.waited {settings : WorkerSettings} {y : BingxTransfer}
    {now clock : Timestamp} (h : y.Ready settings now) (hst : y.status = .pending)
    (hb : b ≤ settings.retryBackoffSeconds) (hspaced : y.Spaced b clock) :
    y.scheduledAt + y.attemptNumber * seconds b ≤ now := by
  obtain ⟨hdue, hwait⟩ := h hst
  rcases hwait with hzero | hwait
  · simpa [hzero] using hdue
  · by_cases hzero : y.attemptNumber = 0
    · simpa [hzero] using hdue
    obtain ⟨hlast, -⟩ := hspaced (by simp [hst]) (Nat.one_le_iff_ne_zero.mpr hzero)
    have hback : seconds b ≤ seconds settings.retryBackoffSeconds :=
      Int.mul_le_mul_of_nonneg_right hb (by decide)
    calc y.scheduledAt + y.attemptNumber * seconds b
        = y.scheduledAt + (y.attemptNumber - 1) * seconds b + seconds b := by ring
      _ ≤ y.updatedAt + seconds settings.retryBackoffSeconds := add_le_add hlast hback
      _ ≤ now := hwait

/-- The step lemma: what a commit writes is spaced if what was there is. -/
theorem Committed.spaced {x : Txn signature} {s : Shared signature} {j : Job} {v : Result}
    {ws : List Write} {y : BingxTransfer} (h : Committed unicode x s j v ws) (hj : j.Paced b)
    (hstamped : ∀ settings, j = .processTransfer settings →
      (ws.filterMap stampOf).Pairwise (· ≤ ·) ∧ ∀ u ∈ ws.filterMap stampOf, u ≤ s.ext.now)
    (hpending : ∀ z ∈ s.db.bingxTransfers.rows, z.status ≠ .processing)
    (hs : ∀ z ∈ s.db.bingxTransfers.rows, z.Spaced b s.ext.now) (hy : .bingxTransfer y ∈ ws) :
    y.Spaced b s.ext.now := by
  cases h with
  | nothing => cases hy
  | created | rejected => simp at hy
  | @paid p holdMinutes _ t _ _ _ id _ _ now₂ =>
    obtain rfl : y = newTransfer t holdMinutes id now₂ := by simpa using hy
    exact fun _ hn => absurd hn (by simp [newTransfer])
  | disputed =>
    rcases List.mem_cons.mp hy with hy | hy
    · cases hy
    · obtain ⟨y₀, -, he⟩ := List.mem_map.mp hy
      obtain rfl := Write.bingxTransfer.inj he
      exact fun hst => absurd rfl hst
  | @recorded settings y₀ y' now _ _ ws hclaimed _ hset hws =>
    have hmem := Table.mem_of_find? hclaimed.row
    have hst : y₀.status = .pending := by
      obtain ⟨q, -, -, hclaim⟩ := hclaimed.claimed
      exact (status_of_claimable hclaim).resolve_right (hpending y₀ hmem)
    have hwaited := hclaimed.ready.waited hst hj.2 (hs y₀ hmem)
    obtain ⟨hsorted, hpast⟩ := hstamped settings rfl
    have hlater : now ≤ y'.updatedAt ∧ now ≤ s.ext.now ∧ y'.updatedAt ≤ s.ext.now := by
      simp only [List.filterMap_cons, stampOf, claim, List.pairwise_cons, List.mem_cons,
        forall_eq_or_imp] at hsorted hpast
      exact ⟨hsorted.1.1, hpast.1, hpast.2.1⟩
    rcases List.mem_cons.mp hy with hy | hy
    · obtain rfl := Write.bingxTransfer.inj hy
      exact fun _ _ => ⟨by simpa [claim] using hwaited, hlater.2.1⟩
    rcases List.mem_cons.mp hy with hy | hy
    · obtain rfl := Write.bingxTransfer.inj hy
      refine fun _ _ => ⟨?_, hlater.2.2⟩
      rw [hset.samePayout.scheduledAt, hset.attemptNumber]
      simpa using hwaited.trans hlater.1
    · exact absurd hy (hws.no_transfer y)
  | @reset y₀ _ hrow hst =>
    obtain rfl := Write.bingxTransfer.inj (List.mem_singleton.mp hy)
    exact fun _ hn => hs y₀ (Table.mem_of_find? hrow) (by simp [hst]) hn

theorem run_clock (hs : Opening start) (hr : Run (bank unicode) start tr w)
    {x : Transition signature} (hx : x ∈ tr) :
    x.before.shared.ext.now ≤ x.after.shared.ext.now := by
  rcases ((payments_valid unicode).transition hs.inv hr (starts_any tr) hx).2 with he | hlink
  · rw [he]
  · have hg : Guar x.before.shared x.after.shared := hlink.guar
    exact hg.now

theorem run_ne_processing (hs : Opening start) (hr : Run (bank unicode) start tr w)
    (hj : Contract.Starts Job.Together tr) :
    ∀ y ∈ w.shared.db.bingxTransfers.rows, y.status ≠ .processing := by
  intro y hy
  obtain ⟨t, -, -, hfile⟩ := Database.file_of_transfer (run_inv hs hr).sound hy
  exact (run_agrees hs hr hj _ _ hfile).ne_processing

/-- The run lemma. -/
theorem run_spaced (hs : Opening start) (hr : Run (bank unicode) start tr w)
    (hj : Contract.Starts (Job.Paced b) tr) :
    ∀ y ∈ w.shared.db.bingxTransfers.rows, y.Spaced b w.shared.ext.now := by
  have hv := (together_valid unicode).mono fun (j : Job) (hj : j.Paced b) => hj.together
  induction hr with
  | nil => simp [World.idle, hs.bingxTransfers]
  | @snoc tr w w' a hr hstep ih =>
    have hearly : Contract.Starts (Job.Paced b) tr := fun x hx => hj x (List.mem_cons_of_mem _ hx)
    have hclock : w.shared.ext.now ≤ w'.shared.ext.now :=
      run_clock hs (hr.snoc hstep) List.mem_cons_self
    have hold := ih hearly
    intro y hy
    rcases ((hv.run hs.inv hr hearly).change hstep).together (fun _ hj => hj.together) with
      ⟨-, he⟩ | ⟨s, v, hc, hjob, ho, -, he⟩
    · exact (hold y (he ▸ hy)).later hclock
    change w'.shared = _ at he
    rw [he] at hy ⊢
    rcases Database.transfer_replay (Table.find?_of_mem hy) with ⟨hw, -⟩ | ⟨hf, -⟩
    · refine ho.committed.spaced hjob (fun settings hproc => ?_)
        (run_ne_processing hs hr fun x hx i j he => (hearly x hx i j he).together) hold
        (List.mem_filter.mpr ⟨hw, rfl⟩)
      have hprog : ∀ j : Job, (∃ settings, j = .processTransfer settings) → ∀ t,
          Prog.Stamps (σ := signature) stampOf ((bank unicode).program j) t := by
        rintro _ ⟨settings, rfl⟩ t
        exact stamps_processTransfer
      obtain ⟨t, ht, -, hsorted, hpast⟩ := hr.stamped hprog (fun x hx => run_clock hs hr hx) s
        (Table.mem_of_find? hc.1) ⟨settings, hproc⟩
      have hsub := (List.filter_sublist (p := Write.bound) (l := s.txn.pending)).filterMap stampOf
      exact ⟨hsorted.sublist hsub, fun u hu => (hpast u (hsub.subset hu)).trans ht⟩
    · exact hold y (Table.mem_of_find? hf)

/-- Whatever runs side by side, a request for a transfer is sent no earlier than when it is due
and as many backoffs later as there are attempts on record, and what is given up has waited for
all of them. -/
theorem sends_keep_pace (hs : Opening start) (hr : Run (bank unicode) start tr w) (hb : 0 ≤ b)
    (hj : Contract.Starts (Job.Paced b) tr) :
    (∀ late x early q, tr = late ++ x :: early → x.request? = some q →
      ∃ y ∈ x.before.shared.db.bingxTransfers.rows, y.request = q ∧
        y.scheduledAt + (answersTo unicode q.idempotencyKey early).length * seconds b ≤
          x.before.shared.ext.now) ∧
    ∀ y ∈ w.shared.db.bingxTransfers.rows, y.status = .error →
      y.scheduledAt + (maxTransferAttempts - 1) * seconds b ≤ w.shared.ext.now := by
  have htogether {tr : List (Transition signature)} (h : Contract.Starts (Job.Paced b) tr) :
      Contract.Starts Job.Together tr := fun x hx i j he => (h x hx i j he).together
  constructor
  · rintro late x early q rfl hq
    have hearly : Contract.Starts (Job.Paced b) early := fun z hz =>
      hj z (List.mem_append_right _ (List.mem_cons_of_mem _ hz))
    obtain ⟨hrun, -⟩ := hr.cut
    obtain ⟨_, hpaced, settings, rfl, y, hy, hreq, hst, hready⟩ :=
      ((pacing_valid unicode).mono fun (j : Job) (hj : j.Paced b) => hj.together).sends hs.inv hr hj
        (x := x) (by simp) hq
    have hpending := hst.resolve_right (run_ne_processing hs hrun (htogether hearly) y hy)
    have hcount := (run_counted_transfer hs hrun (htogether hearly) hy).attempts
    refine ⟨y, hy, hreq, ?_⟩
    rw [show q.idempotencyKey = y.idempotencyKey from hreq ▸ rfl, ← hcount]
    exact hready.waited hpending hpaced.2 (run_spaced hs hrun hearly y hy)
  · intro y hy hst
    have hcounted := run_counted_transfer hs hr (htogether hj) hy
    obtain ⟨_, _, -, -, hmax⟩ := hcounted.error.mp hst
    rw [← hcounted.attempts] at hmax
    obtain ⟨hwaited, hpast⟩ := run_spaced hs hr hj y hy (by simp [hst]) (le_trans (by decide) hmax)
    have hfactor : ((maxTransferAttempts : ℤ) - 1) * seconds b ≤
        ((y.attemptNumber : ℤ) - 1) * seconds b :=
      Int.mul_le_mul_of_nonneg_right (by omega) (Int.mul_nonneg hb (by decide))
    exact (add_le_add_right hfactor _).trans (hwaited.trans hpast)

end

/-! ### A second attempt -/

/-- A worker with a backoff of half a minute. -/
def patientWorker : WorkerSettings where
  staleSeconds := 300
  retryBackoffSeconds := 30

/-- The first attempt breaks off, and half a minute later the payout is sent once more. -/
def secondAttempt : List (Action signature) :=
  paidDeposit ++ .start 0 (.processTransfer patientWorker) :: runs 0 3 ++
    recordAnswer 0 (.connectionError "read timeout") 2 ++ commit 0 :: .event (.tick 30000000) ::
      .start 0 (.processTransfer patientWorker) :: runs 0 3

/-- What is sent last, after how many attempts on record, and when it was due. -/
def lastSend (r : List (Transition signature) × World signature) :
    Option TransferRequest × ℕ × List Timestamp :=
  (r.1.head?.bind Transition.request?,
    (answersTo .ascii payout.idempotencyKey r.1.tail).length,
    r.2.shared.db.bingxTransfers.rows.map (·.scheduledAt))

theorem sends_keep_pace_second : ∃ tr x w y, Run (bank .ascii) launch (x :: tr) w ∧
    x.request? = some payout ∧ y ∈ x.before.shared.db.bingxTransfers.rows ∧
    y.request = payout ∧ y.scheduledAt + 30 * 10 ^ 6 ≤ x.before.shared.ext.now := by
  obtain ⟨tr, w, hr, hactions, hw⟩ := Run.exists_of_trace (bank .ascii) launch secondAttempt
    lastSend (b := (some payout, 1, [0])) (by decide)
  obtain ⟨hlast, hrest⟩ := Prod.mk.inj hw
  cases tr with
  | nil => cases hlast
  | cons x early =>
    have hj : Contract.Starts (Job.Paced 30) (x :: early) :=
      Contract.Starts.of_actions hactions (by decide)
    have hone : (answersTo .ascii payout.idempotencyKey early).length = 1 := (Prod.mk.inj hrest).1
    obtain ⟨y, hy, hreq, hpace⟩ :=
      (sends_keep_pace opening_launch hr (by decide) hj).1 [] x early payout rfl hlast
    rw [hone] at hpace
    exact ⟨early, x, w, y, hr, hlast, hy, hreq, by simpa [seconds] using hpace⟩

end MoneyWay
