import MoneyWay.Histories
import MoneyWay.Library.ReadCommitted.Deadlock

/-!
# Waiting for row locks

The webhooks lock the transaction first, and whatever they may have to wait for
after it lies higher in the order of `level`. The worker goes the other way: it locks a
transfer and then its transaction. A chargeback that has locked the transaction and a worker
that has claimed its transfer can therefore wait for each other, and there is no
other deadlock.

## Main definitions

- `Overlap` — a chargeback has locked the transaction of a transfer that a worker has locked
- `Crosses` — the step with which the second of the two takes its lock

## Main results

- `not_deadlocked` — no deadlock in a history without such a step
- `not_deadlock_free` — a payout during which a chargeback arrives
-/

set_option autoImplicit false

namespace MoneyWay

open Keyed ReadCommitted Python Prog Sql

/-- The job is the webhook of a chargeback. -/
def Job.disputes : Job → Bool
  | .sbpChargebackWebhook _ => true
  | _ => false

/-- The job is a step of the worker, in a transaction. -/
def Job.paysOut : Job → Bool
  | .processTransfer settings => !settings.autocommit
  | _ => false

/-- One of the locks is on the row. -/
def Locks (locks : List (Row × LockMode)) (r : Row) : Prop := ∃ l ∈ locks, l.1 = r

instance (locks : List (Row × LockMode)) (r : Row) : Decidable (Locks locks r) :=
  inferInstanceAs (Decidable (∃ l ∈ locks, l.1 = r))

/-- A chargeback has locked the transaction of a transfer that a worker has locked. -/
def Overlap (w : World signature) : Prop :=
  ∃ c ∈ w.sessions.rows, ∃ v ∈ w.sessions.rows, ∃ y ∈ w.shared.db.bingxTransfers.rows,
    c.job.disputes = true ∧ v.job.paysOut = true ∧
      Locks c.txn.held (.transaction y.transactionId) ∧ Locks v.txn.held (.bingxTransfer y.id)

/-- The session that makes the step. -/
def runner? (x : Transition signature) : Option (Session signature) :=
  match x.action with
  | .run i => x.before.sessions.find? i
  | _ => none

/-- A chargeback goes to lock the transaction of a transfer that a worker has locked, or a worker
goes to lock a transfer of a transaction that a chargeback has locked. -/
def Crosses (x : Transition signature) : Prop :=
  ∃ s ∈ runner? x, ∃ t ∈ x.before.sessions.rows, ∃ y ∈ x.before.shared.db.bingxTransfers.rows,
    s.job.disputes = true ∧ t.job.paysOut = true ∧
        Locks (x.before.wants s) (.transaction y.transactionId) ∧
        Locks t.txn.held (.bingxTransfer y.id) ∨
      s.job.paysOut = true ∧ t.job.disputes = true ∧
        Locks (x.before.wants s) (.bingxTransfer y.id) ∧
        Locks t.txn.held (.transaction y.transactionId)

instance : DecidablePred Crosses := fun x =>
  inferInstanceAs (Decidable (∃ s ∈ runner? x, ∃ t ∈ x.before.sessions.rows,
    ∃ y ∈ x.before.shared.db.bingxTransfers.rows, _ ∨ _))

/-! ## A cycle needs an overlap -/

section

variable {unicode : Unicode} {w : World signature} {held : List (Row × LockMode)} {r : Row}
  {s : Shared signature} {j : Job}

/-- Who holds a transaction and may have to wait is a webhook. -/
theorem Queues.transaction (h : Queues held r s j) {id : String} {n : LockMode}
    (hheld : (.transaction id, n) ∈ held) :
    ∃ t, s.db.transactions.find? id = some t ∧ (t.status = .pending ∨ j.disputes = true) := by
  cases j with
  | createDeposit settings request =>
    obtain ⟨code, hcode⟩ := h.1 _ hheld
    cases hcode
  | sbpPaymentWebhook p holdMinutes =>
    obtain ⟨-, t, ht, hpending, honly⟩ := h
    refine ⟨t, ?_, .inl hpending⟩
    rw [honly _ hheld id rfl, Table.key_of_find? ht]
    exact ht
  | sbpChargebackWebhook p =>
    obtain ⟨-, t, ht, honly, -⟩ := h
    refine ⟨t, ?_, .inr rfl⟩
    rw [honly _ hheld id rfl, Table.key_of_find? ht]
    exact ht
  | processTransfer settings =>
    obtain ⟨y, -, -, honly⟩ := h
    cases honly _ hheld
  | _ => exact h.elim

/-- A session on a cycle is in one of the positions in which it may have to wait. -/
theorem queues_of_waits (h : (payments unicode).Safe (bank unicode) (fun _ => True) w)
    {a b c : Session signature} {r' : Row} (hab : Waits w a r b) (hbc : Waits w b r' c) :
    b.job.autocommit = false ∧ Queues b.txn.held r' w.shared b.job ∧
      ∃ n, (r, n) ∈ b.txn.held := by
  obtain ⟨hauto, n, hheld, wanted, m, hask, hwanted, huncovered⟩ := h.ask_of_waits hab hbc
  have hask : Asks b.job b.txn wanted w.shared := hask
  refine ⟨hauto, ?_, n, hheld⟩
  cases hask (r', m) hwanted with
  | inl hcovered =>
    obtain ⟨k, hk, hcovers⟩ := hcovered
    rw [huncovered k hk] at hcovers
    cases hcovers
  | inr hrest =>
    cases hrest with
    | inl hempty =>
      rw [hempty] at hheld
      cases hheld
    | inr hqueues => exact hqueues

/-- Without an overlap sessions that wait for each other wait in ascending order. -/
theorem level_lt_of_waits (h : (payments unicode).Safe (bank unicode) (fun _ => True) w)
    (hapart : ¬ Overlap w) {a b c d : Session signature} {r r' r'' : Row}
    (hab : Waits w a r b) (hbc : Waits w b r' c) (hcd : Waits w c r'' d) : level r < level r' := by
  obtain ⟨hauto, hqueues, n, hheld⟩ := queues_of_waits h hab hbc
  obtain ⟨-, hnext, n', hheld'⟩ := queues_of_waits h hbc hcd
  have hinv : Inv w.shared := h.inv
  cases hjob : b.job with
  | createDeposit settings request =>
    -- it waits for a row that no webhook can hold: the transaction it inserts
    rw [hjob] at hqueues
    obtain ⟨-, id, rfl, hnone⟩ := hqueues
    obtain ⟨t, ht, -⟩ := hnext.transaction hheld'
    rw [hnone] at ht
    cases ht
  | sbpPaymentWebhook p holdMinutes =>
    rw [hjob] at hqueues
    exact hqueues.1 _ hheld
  | sbpChargebackWebhook p =>
    rw [hjob] at hqueues
    exact hqueues.1 _ hheld
  | processTransfer settings =>
    rw [hjob] at hqueues
    obtain ⟨y, hy, rfl, honly⟩ := hqueues
    obtain ⟨t, ht, hcases⟩ := hnext.transaction hheld'
    cases hcases with
    | inl hpending => exact absurd rfl ((hinv.sound.bare ht hpending).2 y hy)
    | inr hdisputes =>
      have hpaysOut : b.job.paysOut = true := by
        rw [hjob] at hauto ⊢
        rw [Job.paysOut, Bool.not_eq_true']
        exact hauto
      exact absurd ⟨c, hbc.holder, b, hbc.mem, y, hy, hdisputes, hpaysOut,
        ⟨_, hheld', rfl⟩, ⟨_, hheld, honly _ hheld⟩⟩ hapart
  | _ =>
    rw [hjob] at hqueues
    exact hqueues.elim

theorem overlap_of_deadlocked (h : (payments unicode).Safe (bank unicode) (fun _ => True) w)
    (hcycle : Deadlocked w) : Overlap w := by
  by_contra hapart
  refine not_deadlocked_of_level level ?_ hcycle
  intro a r b r' c r'' d hab hbc hcd
  exact level_lt_of_waits h hapart hab hbc hcd

end

/-! ## How an overlap comes about -/

/-- Nobody else can write a transfer that is locked. -/
def Guards (l : Row × LockMode) : Prop := ∀ id, l.1 = .bingxTransfer id → l.2.protects = true

section

variable {unicode : Unicode}

theorem takes_exec {β : Type} {q : Statement β}
    (h : ∀ b d eff, q b d = .ok eff → ∀ l ∈ eff.locks, Guards l) :
    (exec q : Handler β).Takes Guards := by
  refine .exec fun b d eff hq l hl => ?_
  cases List.mem_append.mp hl with
  | inl hlock => exact h b d eff hq l hlock
  | inr hwrite =>
    intro id _
    obtain ⟨hmode, -⟩ := mem_writeLocks.mp hwrite
    rw [hmode]
    rfl

theorem guards_keyShare {transactionId : Option String} {l : Row × LockMode}
    (hl : l ∈ keyShare transactionId) : Guards l := by
  intro id hid
  obtain ⟨t, -, rfl⟩ := List.mem_map.mp hl
  cases hid

theorem takes_writeAuditLog {eventType : EventType} {userId transactionId : Option String}
    {payload : Details} {ipAddress deviceFingerprint userAgent : Option String} :
    (writeAuditLog eventType userId transactionId payload ipAddress deviceFingerprint
      userAgent).Takes Guards := by
  refine .now fun _ => takes_exec fun b d eff hq l hl => ?_
  rw [insertAuditLog_ok hq] at hl
  exact guards_keyShare hl

theorem takes_updateTransaction {id : String} {texts : List (ℕ × Option String)}
    {guard : Transaction → Bool} {set : Transaction → Transaction} :
    (exec (updateTransaction id texts guard set) : Handler Unit).Takes Guards := by
  refine takes_exec fun b d eff hq l hl => ?_
  cases ht : d.transactions.find? id with
  | none =>
    rw [updateTransaction_none ht hq] at hl
    cases hl
  | some t =>
    rw [updateTransaction_ok ht hq] at hl
    cases hl

theorem takes_updateTransfer {id : String} {texts : List (ℕ × Option String)}
    {response : Option Json} {guard : BingxTransfer → Bool} {set : BingxTransfer → BingxTransfer} :
    (exec (updateTransfer id texts response guard set) : Handler Unit).Takes Guards := by
  refine takes_exec fun b d eff hq l hl => ?_
  cases hx : d.bingxTransfers.find? id with
  | none =>
    rw [updateTransfer_none hx hq] at hl
    cases hl
  | some x =>
    rw [updateTransfer_ok hx hq] at hl
    cases hl

theorem takes_follow (transfer : ClaimedTransfer) (route : Route) :
    (follow transfer route).Takes Guards := by
  cases route with
  | complete bingxTransferId response =>
    exact .now fun _ => .bind takes_updateTransfer fun _ =>
      .bind takes_updateTransaction fun _ => takes_writeAuditLog
  | fail payload =>
    exact .now fun _ => .bind takes_updateTransfer fun _ =>
      .bind takes_updateTransaction fun _ => takes_writeAuditLog
  | hold payload =>
    refine .now fun _ => .bind takes_updateTransfer fun _ =>
      .bind (takes_exec fun b d eff hq l hl => ?_) fun _ => takes_writeAuditLog
    rw [insertFraudAlert_ok hq] at hl
    exact guards_keyShare hl
  | retry payload =>
    exact .now fun _ => .bind takes_updateTransfer fun _ =>
      .ite (.now fun _ => .bind takes_updateTransaction fun _ => takes_writeAuditLog) trivial
  | uncaught => exact trivial

theorem takes_claimNextTransfer (staleSeconds retryBackoffSeconds : ℤ) :
    (claimNextTransfer staleSeconds retryBackoffSeconds).Takes Guards := by
  refine .now fun _ => takes_exec fun b d eff hq l hl => ?_
  cases updateNextTransfer_ok hq with
  | inl hnone =>
    rw [hnone] at hl
    cases hl
  | inr hclaim =>
    obtain ⟨y, -, -, heff⟩ := hclaim
    rw [heff] at hl
    intro id _
    rw [List.mem_singleton.mp hl]
    rfl

theorem takes_processTransfer (settings : WorkerSettings) :
    ((bank unicode).program (.processTransfer settings)).Takes Guards := by
  refine .bind (.bind (takes_claimNextTransfer _ _) fun o => ?_) fun _ => trivial
  cases o with
  | none => trivial
  | some transfer =>
    refine .bind ?_ fun result => .bind ?_ fun _ => trivial
    · unfold createInternalTransfer
      split
      · trivial
      · exact fun _ => trivial
    · rw [recordOutcome_eq]
      exact takes_follow ..

variable {start : Shared signature} {tr : List (Transition signature)} {w w' : World signature}

/-- The locks of a worker on transfers keep the others from writing them. -/
theorem guards_of_paysOut (hr : Run (bank unicode) start tr w) {v : Session signature}
    (hv : v ∈ w.sessions.rows) (hpaysOut : v.job.paysOut = true) : ∀ l ∈ v.txn.held, Guards l := by
  have hprog : ∀ j : Job, j.paysOut = true → ((bank unicode).program j).Takes Guards := by
    intro j hj
    cases j with
    | processTransfer settings => exact takes_processTransfer settings
    | _ => cases hj
  exact (Run.takes hprog hr v hv hpaysOut).2

theorem not_paysOut_of_disputes {j : Job} (h : j.disputes = true) : j.paysOut = false := by
  cases j with
  | sbpChargebackWebhook p => rfl
  | _ => cases h

/-- A transfer that a worker has locked was there before the step. -/
theorem mem_transfers_of_locked (hv : (payments unicode).Valid (bank unicode) fun _ => True)
    (h : (payments unicode).Safe (bank unicode) (fun _ => True) w) {a : Action signature}
    (hstep : w.step (bank unicode) a = some w') {v : Session signature}
    (hmem : v ∈ w.sessions.rows) (hguards : ∀ l ∈ v.txn.held, Guards l)
    (hne : a ≠ .run v.id) {y : BingxTransfer} (hy : y ∈ w'.shared.db.bingxTransfers.rows)
    (hlocked : Locks v.txn.held (.bingxTransfer y.id)) : y ∈ w.shared.db.bingxTransfers.rows := by
  obtain ⟨⟨r, m⟩, hheld, hrow⟩ := hlocked
  have hrow : r = .bingxTransfer y.id := hrow
  subst hrow
  have hlater := h.later_of_step hv hstep hmem hne
  have hsame := hlater.rows _ m hheld (hguards _ hheld y.id rfl)
  have hfind : w'.shared.db.bingxTransfers.find? y.id = some y := Table.find?_of_mem hy
  rw [store_row, store_row, Database.row, Database.row, hfind, Option.map_some] at hsame
  obtain ⟨x, hx, hxy⟩ := Option.map_eq_some_iff.mp hsame.symm
  cases hxy
  exact Table.mem_of_find? hx

theorem Locks.of_step {a : Action signature} (hstep : w.step (bank unicode) a = some w')
    {t : Session signature} (ht : t ∈ w'.sessions.rows) {r : Row} (h : Locks t.txn.held r) :
    ∃ s ∈ w.sessions.rows, s.id = t.id ∧ s.job = t.job ∧
      (Locks s.txn.held r ∨ a = .run s.id ∧ Locks (w.wants s) r) := by
  obtain ⟨l, hl, hrow⟩ := h
  obtain ⟨s, hs, hid, hjob, hheld⟩ := World.held_step hstep ht hl
  refine ⟨s, hs, hid, hjob, ?_⟩
  cases hheld with
  | inl hheld => exact .inl ⟨l, hheld, hrow⟩
  | inr hrun => exact .inr ⟨hrun.1, l, hrun.2, hrow⟩

theorem not_autocommit_of_paysOut {j : Job} (h : j.paysOut = true) : j.autocommit = false := by
  cases j with
  | processTransfer settings =>
    rw [Job.paysOut, Bool.not_eq_true'] at h
    exact h
  | _ => cases h

/-- An overlap was there before the step, or the step is the one that leads to it. -/
theorem overlap_of_step (hv : (payments unicode).Valid (bank unicode) fun _ => True)
    (h : (payments unicode).Safe (bank unicode) (fun _ => True) w)
    (hguards : ∀ v ∈ w.sessions.rows, v.job.paysOut = true → ∀ l ∈ v.txn.held, Guards l)
    {a : Action signature} (hstep : w.step (bank unicode) a = some w') (hoverlap : Overlap w') :
    Overlap w ∨ Crosses ⟨w, a, w'⟩ := by
  obtain ⟨c', hc', v', hv', y, hy, hdisputes, hpaysOut, hlockedC, hlockedV⟩ := hoverlap
  obtain ⟨c, hc, hidC, hjobC, hstepC⟩ := hlockedC.of_step hstep hc'
  obtain ⟨v, hv₀, hidV, hjobV, hstepV⟩ := hlockedV.of_step hstep hv'
  rw [← hjobC] at hdisputes
  have hpaysOut₀ : v.job.paysOut = true := by
    rw [hjobV]
    exact hpaysOut
  have hne : c.id ≠ v.id := by
    intro he
    have hsame : c = v := Table.eq_of_key hc hv₀ he
    rw [hsame] at hdisputes
    rw [not_paysOut_of_disputes hdisputes] at hpaysOut₀
    cases hpaysOut₀
  have hbefore : y ∈ w.shared.db.bingxTransfers.rows := by
    by_cases ha : a = .run v.id
    · rw [hidV] at ha
      rw [ha] at hstep
      rw [← World.db_eq_of_goes_on hstep hv' (not_autocommit_of_paysOut hpaysOut)]
      exact hy
    · have hheld : Locks v.txn.held (.bingxTransfer y.id) :=
        hstepV.resolve_right fun hrun => ha hrun.1
      exact mem_transfers_of_locked hv h hstep hv₀ (hguards v hv₀ hpaysOut₀) ha hy hheld
  cases hstepC with
  | inl hheldC =>
    cases hstepV with
    | inl hheldV =>
      exact .inl ⟨c, hc, v, hv₀, y, hbefore, hdisputes, hpaysOut₀, hheldC, hheldV⟩
    | inr hrun =>
      obtain ⟨rfl, hwants⟩ := hrun
      exact .inr ⟨v, Table.find?_of_mem hv₀, c, hc, y, hbefore,
        .inr ⟨hpaysOut₀, hdisputes, hwants, hheldC⟩⟩
  | inr hrunC =>
    obtain ⟨rfl, hwants⟩ := hrunC
    have hheldV : Locks v.txn.held (.bingxTransfer y.id) := by
      refine hstepV.resolve_right fun hrun => hne ?_
      exact Action.run.inj hrun.1
    exact .inr ⟨c, Table.find?_of_mem hc, v, hv₀, y, hbefore,
      .inl ⟨hdisputes, hpaysOut₀, hwants, hheldV⟩⟩

theorem not_overlap_of_apart (hs : Opening start) (hr : Run (bank unicode) start tr w)
    (hapart : ∀ x ∈ tr, ¬ Crosses x) : ¬ Overlap w := by
  induction hr with
  | nil =>
    rintro ⟨c, hc, -⟩
    cases hc
  | @snoc tr w w' a hr hstep ih =>
    intro hoverlap
    have hsafe := (payments_valid unicode).run hs.inv hr (starts_any tr)
    have hguards : ∀ v ∈ w.sessions.rows, v.job.paysOut = true → ∀ l ∈ v.txn.held, Guards l :=
      fun v hv hpaysOut => guards_of_paysOut hr hv hpaysOut
    cases overlap_of_step (payments_valid unicode) hsafe hguards hstep hoverlap with
    | inl hbefore => exact ih (fun x hx => hapart x (List.mem_cons_of_mem _ hx)) hbefore
    | inr hcrosses => exact hapart _ List.mem_cons_self hcrosses

/-- No deadlock in a history, if no chargeback and no worker take the two locks in turn. -/
theorem not_deadlocked (hs : Opening start) (hr : Run (bank unicode) start tr w)
    (hapart : ∀ x ∈ tr, ¬ Crosses x) : ¬ Deadlocked w := by
  intro hcycle
  have hsafe := (payments_valid unicode).run hs.inv hr (starts_any tr)
  exact not_overlap_of_apart hs hr hapart (overlap_of_deadlocked hsafe hcycle)

end

/-- A worker comes to a deposit that is being charged back. -/
def payoutOfDisputed : List (Action signature) :=
  paidDeposit ++ disputeDeposit 0 ++ .start 1 (.processTransfer worker) :: runs 1 2

/-- It finds nothing to do, and neither of the two waits for the other. -/
theorem not_deadlocked_payoutOfDisputed : ∃ tr w, Run (bank .ascii) launch tr w ∧
    w.sessions.rows.length = 2 ∧ ¬ Deadlocked w := by
  obtain ⟨tr, w, hr, -, hw⟩ := Run.exists_of_trace (bank .ascii) launch payoutOfDisputed
    (fun r => (decide (∀ x ∈ r.1, ¬ Crosses x), r.2.sessions.rows.length)) (b := (true, 2))
    (by decide +kernel)
  obtain ⟨hapart, hlength⟩ := Prod.mk.inj hw
  exact ⟨tr, w, hr, hlength, not_deadlocked opening_launch hr (of_decide_eq_true hapart)⟩

/-- A chargeback locks the transaction of a payout that is under way and goes on to cancel the
payout. Then BingX accepts, and the worker goes on to complete the transaction. -/
def disputedPayout : List (Action signature) :=
  paidDeposit ++ sendPayout 0 ++ .start 1 (.sbpChargebackWebhook aliceChargeback) :: runs 1 3 ++
    recordAnswer 0 acceptance 2

/-- The claim that no history leads to a deadlock fails. -/
theorem not_deadlock_free : ¬ ∀ (unicode : Unicode) (start : Shared signature)
    (tr : List (Transition signature)) (w : World signature), Opening start →
    Run (bank unicode) start tr w → Contract.Starts Job.Together tr → ¬ Deadlocked w := by
  intro h
  obtain ⟨tr, w, hr, hactions, hembraced⟩ := Run.exists_of_trace (bank .ascii) launch disputedPayout
    (fun r => r.2.embraced) (b := true) (by decide +kernel)
  have hj : Contract.Starts Job.Together tr := Contract.Starts.of_actions hactions (by decide)
  exact h .ascii launch tr w opening_launch hr hj (World.deadlocked_of_embraced hembraced)

end MoneyWay
