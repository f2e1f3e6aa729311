import MoneyWay.Histories
import MoneyWay.Library.ReadCommitted.Erasure

/-!
# Webhooks delivered again

A webhook that has had its effect, and any payment webhook for a transaction that has left
pending, stops at its first statement. Such deliveries can be inserted anywhere later in a
history, side by side with everything else: it ends in the same state, and they succeed.
-/

set_option autoImplicit false

namespace MoneyWay

open Keyed ReadCommitted Python Prog Sql

/-! ## The rows whose locks are looked at -/

/-- Only the claim of the worker skips locked rows, and these are transfers. -/
def Row.IsTransfer (r : Row) : Prop := ∃ id, r = .bingxTransfer id

section

variable {unicode : Unicode}

theorem watches_exec {β : Type} {q : Statement β} (h : ∀ b b' d, q b d = q b' d) :
    (exec q : Handler β).Watches Row.IsTransfer := .exec (.of_const h)

theorem watches_writeAuditLog {eventType : EventType} {userId transactionId : Option String}
    {payload : Details} {ipAddress deviceFingerprint userAgent : Option String} :
    (writeAuditLog eventType userId transactionId payload ipAddress deviceFingerprint
      userAgent).Watches Row.IsTransfer :=
  .now fun _ => watches_exec fun _ _ _ => rfl

theorem watches_recordDeposit (r : DepositCreateRequest) (transactionId : String)
    (promoCodeId : Option String) (commission amountUsdt : Decimal) (now : Timestamp) :
    (recordDeposit r transactionId promoCodeId commission amountUsdt now).Watches
      Row.IsTransfer := by
  refine .bind (watches_exec fun _ _ _ => rfl) fun _ => .bind ?_ fun _ =>
    .bind watches_writeAuditLog fun _ => trivial
  unfold checkDevice
  split
  · trivial
  · refine .bind (watches_exec fun _ _ _ => rfl) fun o => ?_
    split
    · trivial
    · exact .now fun _ => watches_exec fun _ _ _ => rfl

theorem watches_createDeposit (settings : Settings) (r : DepositCreateRequest) :
    (createDeposit unicode settings r).Watches Row.IsTransfer := by
  unfold createDeposit
  refine .now fun started => ?_
  split
  · trivial
  refine .bind (.bind (watches_exec fun _ _ _ => rfl) fun b => ?_) fun _ => .bind ?_ fun promo => ?_
  · split <;> trivial
  · unfold applyPromoCode
    split
    · trivial
    · refine .bind (watches_exec fun _ _ _ => rfl) fun o => ?_
      split <;> trivial
  · refine .now fun now => .uuid fun id => ?_
    split
    · trivial
    split
    · trivial
    · exact watches_recordDeposit ..

theorem watches_handleSbpPaymentWebhook (p : SBPPaymentWebhook) (holdMinutes : ℤ) :
    (handleSbpPaymentWebhook p holdMinutes).Watches Row.IsTransfer := by
  refine .bind (watches_exec fun _ _ _ => rfl) fun o => ?_
  split
  · exact watches_writeAuditLog
  split
  · trivial
  split
  · split
    · trivial
    · exact .now fun _ => .bind (watches_exec fun _ _ _ => rfl) fun _ =>
        .bind (watches_exec fun _ _ _ => rfl) fun _ => watches_writeAuditLog
  split
  · trivial
  split
  · split
    · trivial
    split
    · exact .now fun _ => .bind (watches_exec fun _ _ _ => rfl) fun _ => watches_writeAuditLog
    · refine .now fun _ => .bind (watches_exec fun _ _ _ => rfl) fun _ => .bind ?_ fun _ =>
        .bind ?_ fun _ => watches_writeAuditLog
      · exact .now fun _ => watches_exec fun _ _ _ => rfl
      · exact .now fun _ => .uuid fun _ => .bind (watches_exec fun _ _ _ => rfl) fun _ =>
          watches_exec fun _ _ _ => rfl
  · trivial

theorem watches_blacklistChargeback (type : BlacklistType) (value reason : String) :
    (blacklistChargeback type value reason).Watches Row.IsTransfer := by
  unfold blacklistChargeback
  split
  · trivial
  · exact .uuid fun _ => .now fun _ => watches_exec fun _ _ _ => rfl

theorem watches_handleChargebackWebhook (p : SBPChargebackWebhook) :
    (handleChargebackWebhook p).Watches Row.IsTransfer := by
  refine .bind (watches_exec fun _ _ _ => rfl) fun o => ?_
  split
  · exact watches_writeAuditLog
  split
  · trivial
  split
  · exact watches_writeAuditLog
  · exact .now fun _ => .bind (watches_exec fun _ _ _ => rfl) fun _ =>
      .bind (watches_exec fun _ _ _ => rfl) fun _ => .bind (watches_exec fun _ _ _ => rfl) fun _ =>
      .bind (.bind (watches_blacklistChargeback ..) fun _ => watches_blacklistChargeback ..)
      fun _ => .bind (watches_exec fun _ _ _ => rfl) fun _ => watches_writeAuditLog

theorem watches_follow (transfer : ClaimedTransfer) (route : Route) :
    (follow transfer route).Watches Row.IsTransfer := by
  cases route with
  | complete | fail =>
    exact .now fun _ => .bind (watches_exec fun _ _ _ => rfl) fun _ =>
      .bind (watches_exec fun _ _ _ => rfl) fun _ => watches_writeAuditLog
  | hold =>
    exact .now fun _ => .bind (watches_exec fun _ _ _ => rfl) fun _ =>
      .bind (watches_exec fun _ _ _ => rfl) fun _ => watches_writeAuditLog
  | retry =>
    exact .now fun _ => .bind (watches_exec fun _ _ _ => rfl) fun _ =>
      .ite (.now fun _ => .bind (watches_exec fun _ _ _ => rfl) fun _ => watches_writeAuditLog)
        trivial
  | uncaught => exact trivial

/-- The claim looks at the locks of transfers only. -/
theorem watches_updateNextTransfer {now : Timestamp} {staleCutoff : Option Timestamp}
    {retryCutoff : Timestamp} :
    Stmt.Watches Row.IsTransfer (updateNextTransfer now staleCutoff retryCutoff) := by
  intro b b' d h
  have hlocked (x : BingxTransfer) :
      b (.bingxTransfer x.id) .update = b' (.bingxTransfer x.id) .update := h _ _ ⟨x.id, rfl⟩
  simp only [updateNextTransfer, hlocked]

theorem watches_processNextBingxTransfer (settings : WorkerSettings) :
    (processNextBingxTransfer unicode settings).Watches Row.IsTransfer := by
  refine .bind (.now fun _ => .exec watches_updateNextTransfer) fun o => ?_
  split
  · trivial
  refine .bind ?_ fun result => .bind ?_ fun _ => trivial
  · unfold createInternalTransfer
    split
    · trivial
    · exact fun _ => trivial
  · rw [recordOutcome_eq]
    exact watches_follow ..

theorem program_watches (unicode : Unicode) (j : Job) :
    ((bank unicode).program j).Watches Row.IsTransfer := by
  cases j with
  | createDeposit settings r => exact .bind (watches_createDeposit settings r) fun _ => trivial
  | sbpPaymentWebhook p holdMinutes =>
    exact .bind (watches_handleSbpPaymentWebhook p holdMinutes) fun _ => trivial
  | sbpChargebackWebhook p => exact .bind (watches_handleChargebackWebhook p) fun _ => trivial
  | processTransfer settings =>
    exact .bind (watches_processNextBingxTransfer settings) fun _ => trivial
  | resetOnHold transferId => exact .bind (watches_exec fun _ _ _ => rfl) fun _ => trivial
  | addBlacklistEntry r =>
    exact .bind
      (.uuid fun _ => .now fun _ => .bind (watches_exec fun _ _ _ => rfl) fun _ => trivial)
      fun _ => trivial
  | manageBlacklist change =>
    refine .bind ?_ fun _ => trivial
    cases change with
    | create id form => exact watches_exec fun _ _ _ => rfl
    | edit id form => exact watches_exec fun _ _ _ => rfl
    | remove id =>
      refine .bind (watches_exec fun _ _ _ => rfl) fun found => ?_
      cases found <;> trivial
  | editPromoCode id form => exact .bind (watches_exec fun _ _ _ => rfl) fun _ => trivial
  | transactionDossier adminId transactionId =>
    refine .bind (.bind (.bind (watches_exec fun _ _ _ => rfl) fun o => ?_) fun o => ?_)
      fun _ => trivial
    · split
      · trivial
      · exact .bind (watches_exec fun _ _ _ => rfl) fun _ => .bind (watches_exec fun _ _ _ => rfl)
          fun _ => .bind (watches_exec fun _ _ _ => rfl) fun _ =>
          .bind (watches_exec fun _ _ _ => rfl) fun _ => trivial
    · split
      · trivial
      · exact .bind watches_writeAuditLog fun _ => trivial

end

/-! ## Deliveries that have nothing left to do -/

/-- Two deliveries of one webhook. -/
def SameWebhook : Job → Job → Prop
  | .sbpPaymentWebhook p _, .sbpPaymentWebhook p' _ => p = p'
  | .sbpChargebackWebhook p, .sbpChargebackWebhook p' => p = p'
  | _, _ => False

/-- The transaction a webhook is about. -/
def Job.about? : Job → Option String
  | .sbpPaymentWebhook p _ => some p.transactionId
  | .sbpChargebackWebhook p => some p.transactionId
  | _ => none

/-- The transition commits a delivery of the same webhook that has changed the status of its
transaction. -/
def Effective (j : Job) (x : Transition signature) : Prop :=
  ∃ s v id t t', x.Commits s v ∧ SameWebhook s.job j ∧ j.about? = some id ∧
    x.before.shared.db.transactions.find? id = some t ∧
    x.after.shared.db.transactions.find? id = some t' ∧ t'.status ≠ t.status

/-- After this history, in this state, a delivery comes again: its webhook has been effective,
or it is a payment webhook for a transaction that has left pending. -/
def Redelivery (tr : List (Transition signature)) (d : Database) (j : Job) : Prop :=
  (∃ x ∈ tr, Effective j x) ∨
    ∃ p holdMinutes t, j = .sbpPaymentWebhook p holdMinutes ∧
      d.transactions.find? p.transactionId = some t ∧ t.status ≠ .pending

/-- What makes the handler return at once. -/
def Spent (j : Job) (d : Database) : Prop :=
  match j with
  | .sbpPaymentWebhook p _ =>
    ∃ t, d.transactions.find? p.transactionId = some t ∧ t.status ≠ .pending
  | .sbpChargebackWebhook p =>
    ∃ t, d.transactions.find? p.transactionId = some t ∧ t.status = .chargeback
  | _ => False

theorem Spent.persists {j : Job} {d d' : Database} (h : Spent j d) (hp : Persists d d') :
    Spent j d' := by
  cases j with
  | sbpPaymentWebhook p holdMinutes =>
    obtain ⟨t, ht, hne⟩ := h
    obtain ⟨t', ht', -, hmoves⟩ := hp.transaction _ t ht
    exact ⟨t', ht', TransactionStatus.ne_pending_of_moves hne hmoves⟩
  | sbpChargebackWebhook p =>
    obtain ⟨t, ht, hst⟩ := h
    obtain ⟨t', ht', hst'⟩ := hp.absorbing ht (.inr hst)
    exact ⟨t', ht', hst'.trans hst⟩
  | _ => exact h

section

variable {unicode : Unicode} {start : Shared signature} {tr : List (Transition signature)}
  {w : World signature}

/-- An effective delivery leaves nothing to do for the next one. -/
theorem spent_of_effective (hs : Opening start) (hr : Run (bank unicode) start tr w)
    {x : Transition signature} (hx : x ∈ tr) {j : Job} (he : Effective j x) :
    Spent j x.after.shared.db := by
  obtain ⟨s, v, id, t, t', hc, hsame, habout, ht, ht', hne⟩ := he
  obtain ⟨u, hu, hm⟩ := (run_evolves hs hr hx).transaction id t ht
  obtain rfl := Option.some.inj (hu.symm.trans ht')
  cases j with
  | sbpPaymentWebhook p holdMinutes =>
    cases habout
    exact ⟨u, hu, (hm.status.resolve_left hne).ne_pending⟩
  | sbpChargebackWebhook p =>
    cases habout
    have htogether : (bank unicode).autocommit s.job = false := by
      cases hjob : s.job with
      | processTransfer settings => rw [hjob] at hsame; exact hsame.elim
      | _ => rfl
    obtain ⟨ho, hpast, hafter⟩ := (payments_valid unicode).commits hs.inv hr (starts_any _) hx hc
      htogether
    have hinv := ((payments_valid unicode).transition hs.inv hr (starts_any _) hx).1.inv
    have hstep := Outcome.fileStep hinv (fun q hq => (hpast q hq).1) ho p.transactionId
    rw [Database.file_of_find? ht] at hstep
    have hfile : (replay s.txn.pending x.before.shared.db).file p.transactionId =
        x.after.shared.db.file p.transactionId := by rw [hafter]
    rw [hfile, Database.file_of_find? hu] at hstep
    generalize hjob : s.job = j at hstep hsame
    cases j with
    | sbpChargebackWebhook p' =>
      obtain rfl : p' = p := hsame
      generalize hbefore : some (File.mk t _ _) = f at hstep
      generalize hafter' : some (File.mk u _ _) = f' at hstep
      cases hstep with
      | kept =>
        have hsame := Option.some.inj (hafter'.trans hbefore.symm)
        exact absurd (congrArg (fun f => f.transaction.status) hsame) hne
      | cancelled | disputed =>
        have hdispute := congrArg File.transaction (Option.some.inj hafter')
        exact ⟨u, hu, congrArg Transaction.status hdispute⟩
    | _ => exact hsame.elim
  | _ => cases habout

theorem spent_of_redelivery (hs : Opening start) (hr : Run (bank unicode) start tr w) {j : Job}
    (h : Redelivery tr w.shared.db j) : Spent j w.shared.db := by
  rcases h with ⟨x, hx, he⟩ | ⟨p, holdMinutes, t, rfl, ht, hne⟩
  · have hspent := spent_of_effective hs hr hx he
    obtain ⟨late, early, rfl⟩ := List.append_of_mem hx
    exact hspent.persists (run_persists hs hr)
  · exact ⟨t, ht, hne⟩

variable (unicode) in
/-- The first statement of a spent delivery finds its transaction and locks it, and there is
nothing after it. -/
theorem exists_entry {s : Shared signature} (hs : Inv s) {j : Job} (h : Spent j s.db) :
    j.Together ∧ ∃ (β : Type) (q : Statement β) (k : β → Handler Result) (v : β) (id : String),
      program unicode j = .stmt q k ∧
      (∀ b, q b s.db = .ok { value := v, locks := [(.transaction id, .update)] }) ∧
      k v = .done .accepted := by
  cases j with
  | sbpPaymentWebhook p holdMinutes =>
    obtain ⟨t, ht, hne⟩ := h
    refine ⟨rfl, _, selectTransactionForUpdate p.transactionId, _, some t, p.transactionId, rfl,
      fun b => ?_, ?_⟩
    · simp only [selectTransactionForUpdate, ht, Table.key_of_find? ht]
    · cases hp : p.status <;> by_cases hc : t.status = .chargeback <;>
        simp [Prog.bind, hc, hne] <;> rfl
  | sbpChargebackWebhook p =>
    obtain ⟨t, ht, hst⟩ := h
    obtain ⟨u, hu⟩ := hs.sound.user t (Table.mem_of_find? ht)
    let k := s.db.kycRecords.find? t.id
    refine ⟨rfl, _, selectDossierForUpdate p.transactionId, _,
      some ⟨t, u.email, k.map (·.payerName), k.map (·.payerPhone)⟩, p.transactionId, rfl,
      fun b => ?_, ?_⟩
    · simp only [selectDossierForUpdate, ht, hu, Table.key_of_find? ht, k]
    · simp [Prog.bind, hst]
      rfl
  | _ => exact h.elim

/-- Where a spent delivery is: before its first statement, or at its end. -/
inductive Idle (unicode : Unicode) (s : Session signature) (d : Database) : Prop
  | started : Spent s.job d → s.prog = program unicode s.job → s.txn = {} → Idle unicode s d
  | answered (id : String) : s.job.Together → (∀ l ∈ s.txn.held, l.1 = .transaction id) →
      s.txn.pending = [] → s.prog = .done .accepted → Idle unicode s d

theorem Idle.persists {s : Session signature} {d d' : Database} (h : Idle unicode s d)
    (hp : Persists d d') : Idle unicode s d' := by
  cases h with
  | started hspent hprog htxn => exact .started (hspent.persists hp) hprog htxn
  | answered id hj hheld hpending hprog => exact .answered id hj hheld hpending hprog

/-- Such a session can be erased. -/
theorem Idle.bystander {s : Session signature} {sh : Shared signature} (hs : Inv sh)
    (h : Idle unicode s sh.db) : Bystander (bank unicode) Row.IsTransfer s := by
  cases h with
  | started hspent hprog htxn =>
    obtain ⟨hj, β, q, k, v, id, hentry, -⟩ := exists_entry unicode hs hspent
    refine ⟨hj, by rw [htxn], by simp [htxn], fun r k' hcall => ?_⟩
    rw [hprog, hentry] at hcall
    cases hcall
  | answered id hj hheld hpending hprog =>
    refine ⟨hj, hpending, fun l hl => ?_, by simp [hprog]⟩
    rw [hheld l hl]
    rintro ⟨id', he⟩
    cases he

/-- It runs its one statement, unless the transaction is locked, and then it ends. -/
theorem Idle.advance {s : Session signature} {sh : Shared signature} (hs : Inv sh)
    (h : Idle unicode s sh.db) (b : Row → LockMode → Bool) :
    s.prog = .done .accepted ∨ ∃ id, s.advance (bank unicode) b sh =
      if b (.transaction id) .update then none
      else some (sh, some { s with
        prog := .done .accepted
        txn := { held := [(.transaction id, .update)], snapshots := [sh] } }) := by
  cases h with
  | answered id hj hheld hpending hprog => exact .inl hprog
  | started hspent hprog htxn =>
    obtain ⟨hj, β, q, k, v, id, hentry, hq, hk⟩ := exists_entry unicode hs hspent
    right
    refine ⟨id, ?_⟩
    have hauto : (bank unicode).autocommit s.job = false := hj
    unfold Session.advance
    rw [hprog, hentry]
    simp only [htxn, replay_nil, hq, hauto, hk, Effect.wanted, writeLocks_nil, List.append_nil,
      List.any_cons, List.any_nil, Bool.or_false, Bool.false_eq_true, if_false, Txn.executed,
      List.nil_append]

/-- The step lemma: an idle session stays so. It waits for nothing but its transaction. -/
theorem Idle.step {s t : Session signature} {sh : Shared signature} (hs : Inv sh)
    (h : Idle unicode s sh.db) (hstep : s.Step (bank unicode) sh t) : Idle unicode t sh.db := by
  have hbusy : (∀ k, s.prog ≠ .fresh k) ∧ ∀ q k, s.prog ≠ .await q k := by
    cases h with
    | answered _ _ _ _ hprog => simp [hprog]
    | started hspent hprog =>
      obtain ⟨-, β, q, k, v, id, hentry, -⟩ := exists_entry unicode hs hspent
      simp [hprog, hentry]
  cases hstep with
  | give i hp => exact absurd hp (hbusy.1 _)
  | answer a hp => exact absurd hp (hbusy.2 _ _)
  | @advance blocked sh' _ _ hadv =>
    cases h.advance hs blocked with
    | inl hp => cases hadv <;> simp_all
    | inr hentry =>
      obtain ⟨id, he⟩ := hentry
      rw [hadv.advance_eq] at he
      split at he
      · cases he
      · cases he
        refine .answered id (h.bystander hs).together ?_ rfl rfl
        simp

variable {D : ℕ → Bool}

/-- Every session of `D` starts as a redelivery. -/
def Redelivers (D : ℕ → Bool) (tr : List (Transition signature)) : Prop :=
  ∀ late x early, tr = late ++ x :: early → ∀ i j, x.action = .start i j → D i = true →
    Redelivery early x.before.shared.db j

theorem Redelivers.tail {x : Transition signature} (h : Redelivers D (x :: tr)) :
    Redelivers D tr := fun late y early he => h (x :: late) y early (by rw [he]; rfl)

/-- The sessions of `D` are idle from their start. -/
theorem idle_step {w' : World signature} {a : Action signature} (hs : Opening start)
    (hr : Run (bank unicode) start tr w) (hstep : w.step (bank unicode) a = some w')
    (hD : Redelivers D (⟨w, a, w'⟩ :: tr))
    (h : ∀ s ∈ w.sessions.rows, D s.id = true → Idle unicode s w.shared.db) :
    ∀ s ∈ w'.sessions.rows, D s.id = true → Idle unicode s w'.shared.db := by
  have hinv := run_inv hs hr
  have hpers : Persists w.shared.db w'.shared.db :=
    (run_evolves hs (hr.snoc hstep) (x := ⟨w, a, w'⟩) List.mem_cons_self).persists
  intro t ht hDt
  cases World.session_cases hstep ht with
  | inl hsame => exact (h t hsame.1 hDt).persists hpers
  | inr hrest =>
    cases hrest with
    | inl hnew =>
      obtain ⟨j, hstart, he⟩ := hnew
      rw [he]
      have hspent := spent_of_redelivery hs hr (hD [] _ tr rfl t.id j hstart hDt)
      exact .started (hspent.persists hpers) rfl rfl
    | inr hmoved =>
      obtain ⟨s, hs', hst, -⟩ := hmoved
      have hidle := h s hs' (hst.id_eq ▸ hDt)
      exact (hidle.step hinv hst).persists hpers

/-- The run lemma. -/
theorem run_idle (hs : Opening start) (hr : Run (bank unicode) start tr w) (hD : Redelivers D tr) :
    ∀ s ∈ w.sessions.rows, D s.id = true → Idle unicode s w.shared.db := by
  induction hr with
  | nil => simp [World.idle, Table.empty]
  | snoc hr hstep ih => exact idle_step hs hr hstep hD (ih hD.tail)

/-- A history `tr'` that is `tr` with redeliveries inserted, the sessions of `D`, ends in the
same state. Each of these that commits succeeds, and each that is open ends that way: it is
at its end, or waits for its transaction, or is at its end after its next operation. -/
theorem redeliveries_change_nothing (hs : Opening start) {tr' : List (Transition signature)}
    {w' : World signature} (hr : Run (bank unicode) start tr w)
    (hr' : Run (bank unicode) start tr' w')
    (hins : tr.map Transition.action = Action.others D (tr'.map Transition.action))
    (hD : Redelivers D tr') :
    w'.shared = w.shared ∧
      (∀ x ∈ tr', ∀ s v, x.Commits s v → D s.id = true → v = .accepted) ∧
      ∀ s ∈ w'.sessions.rows, D s.id = true → s.prog = .done .accepted ∨
        (∃ id, w'.blocked s.id (.transaction id) .update = true) ∨
        ∃ w'' s', w'.step (bank unicode) (.run s.id) = some w'' ∧
          w''.sessions.find? s.id = some s' ∧ s'.prog = .done .accepted := by
  have hcut {x : Transition signature} (hx : x ∈ tr') : Inv x.before.shared ∧
      ∀ s ∈ x.before.sessions.rows, D s.id = true → Idle unicode s x.before.shared.db := by
    obtain ⟨late, early, rfl⟩ := List.append_of_mem hx
    obtain ⟨hrun, -⟩ := hr'.cut
    refine ⟨run_inv hs hrun, run_idle hs hrun fun late' y early' he i j => ?_⟩
    exact hD (late ++ x :: late') y early' (by rw [he]; simp) i j
  refine ⟨?_, fun x hx s v hc hDs => ?_, fun s hs' hDs => ?_⟩
  · obtain ⟨tr'', hr'', hactions⟩ := hr'.erased (program_watches unicode)
      fun x hx s hs' hDs => ((hcut hx).2 s hs' hDs).bystander (hcut hx).1
    have hsame := hr.unique hr'' (hins.trans hactions.symm)
    rw [hsame]
    rfl
  · obtain ⟨hinv, hidle⟩ := hcut hx
    cases hidle s (Table.mem_of_find? hc.1) hDs with
    | started hspent hprog =>
      obtain ⟨-, β, q, k, v', id, hentry, -⟩ := exists_entry unicode hinv hspent
      rw [hc.2.2, hentry] at hprog
      cases hprog
    | answered _ _ _ _ hprog =>
      rw [hc.2.2] at hprog
      cases hprog
      rfl
  · have hinv := run_inv hs hr'
    rcases (run_idle hs hr' hD s hs' hDs).advance hinv (w'.blocked s.id) with hprog | ⟨id, he⟩
    · exact .inl hprog
    by_cases hb : w'.blocked s.id (.transaction id) .update = true
    · exact .inr (.inl ⟨id, hb⟩)
    · rw [if_neg hb] at he
      let s' : Session signature := { s with
        prog := .done .accepted
        txn := { held := [(.transaction id, .update)], snapshots := [w'.shared] } }
      have hstep :
          w'.step (bank unicode) (.run s.id) = some (w'.settle s.id w'.shared (some s')) := by
        simp only [World.step, Table.find?_of_mem hs', Option.bind_some, he, Option.map_some, s']
      exact .inr (.inr ⟨_, s', hstep, Table.find?_put_self _ s', rfl⟩)

end

/-- The sessions of `D` that start are payment webhooks for transactions that have left
pending. -/
def startsLate (D : ℕ → Bool) (x : Transition signature) : Bool :=
  match x.action with
  | .start i (.sbpPaymentWebhook p _) => !D i ||
    (x.before.shared.db.transactions.find? p.transactionId).any fun t => t.status != .pending
  | .start i _ => !D i
  | _ => true

theorem Redelivers.of_startsLate {D : ℕ → Bool} {tr : List (Transition signature)}
    (h : tr.all (startsLate D) = true) : Redelivers D tr := by
  intro late x early he i j ha hDi
  have hx : startsLate D x = true := List.all_eq_true.mp h x (by simp [he])
  simp only [startsLate, ha] at hx
  split at hx
  · next i' p holdMinutes hstart =>
    cases hstart
    simp only [hDi, Bool.not_true, Bool.false_or, Option.any_eq_true, bne_iff_ne] at hx
    obtain ⟨t, ht, hne⟩ := hx
    exact .inr ⟨p, holdMinutes, t, rfl, ht, hne⟩
  · next i' j' _ hstart =>
    cases hstart
    simp [hDi] at hx
  · next hstart => exact absurd rfl (hstart i j)

/-- The payment of the deposit comes again while its payout is being sent. -/
def payAgain : List (Action signature) :=
  paidDeposit ++ sendPayout 0 ++ .start 7 (.sbpPaymentWebhook alicePayment 0) :: runs 7 2 ++
    recordAnswer 0 acceptance 5 ++ [commit 0]

/-- The second payment of `payAgain`. -/
theorem redeliveries_change_nothing_paid : ∃ tr w tr' w', Run (bank .ascii) launch tr w ∧
    Run (bank .ascii) launch tr' w' ∧ tr'.length = tr.length + 3 ∧ w'.shared = w.shared ∧
    statuses w = (some .completed, some .completed) := by
  let D : ℕ → Bool := fun i => i = 7
  obtain ⟨tr, w, hr, hactions, hw⟩ := Run.exists_of_trace (bank .ascii) launch
    (Action.others D payAgain) (fun r => statuses r.2) (b := (some .completed, some .completed))
    (by decide)
  obtain ⟨tr', w', hr', hactions', hw'⟩ := Run.exists_of_trace (bank .ascii) launch payAgain
    (fun r => r.1.all (startsLate D)) (b := true) (by decide)
  have hins : tr.map Transition.action = Action.others D (tr'.map Transition.action) := by
    rw [hactions, hactions', Action.others, Action.others, List.filter_reverse]
  have hlength : (tr'.map Transition.action).length = (tr.map Transition.action).length + 3 := by
    rw [hactions, hactions', List.length_reverse, List.length_reverse]
    decide
  obtain ⟨hsame, -⟩ :=
    redeliveries_change_nothing opening_launch hr hr' hins (Redelivers.of_startsLate hw')
  exact ⟨tr, w, tr', w', hr, hr', by simpa using hlength, hsame, hw⟩

end MoneyWay
