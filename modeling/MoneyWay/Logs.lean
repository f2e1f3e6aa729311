import MoneyWay.Audit

/-!
# Alerts and entries of the audit log

Status, alert and entry of an event are written by separate statements of one handler. Whatever
the sessions do side by side, in every state that is committed each status a deposit has has its
entry, and there are as many alerts of a kind for a deposit as entries of the event they go with.

## Main definitions

- `Logged` — what one commit writes of transactions, alerts and entries

## Main results

- `alerts_accounted` — alerts and entries agree, and one chargeback alert goes with the status
- `run_logsAgree` — and every status has its entry
-/

set_option autoImplicit false

namespace MoneyWay

open Keyed ReadCommitted Python Sql

/-- The event that goes with an alert. -/
def AlertType.event? : AlertType → Option EventType
  | .amountMismatch => some .sbpPaymentAmountMismatch
  | .chargeback => some .chargebackReceived
  | .lowBalance => some .transferOnHold
  | .deviceReuse => none

namespace AlertType

variable {a b : AlertType} {e f : EventType}

theorem eq_iff_of_event? (ha : a.event? = some e) (hb : b.event? = some f) : a = b ↔ e = f := by
  cases a <;> cases b <;> cases ha <;> cases hb <;> decide

/-- What goes with an alert is none of the other events. -/
theorem of_event? (h : a.event? = some e) : a ≠ .deviceReuse ∧ e ≠ .depositCreated ∧
    e ∉ [EventType.sbpPaymentUnmatched, .chargebackUnmatched, .chargebackIneligible,
      .dossierViewed] ∧
    e ∉ [EventType.transferCompleted, .transferFailed, .transferError] ∧
    ∀ st, e.status? = some st → st = .chargeback := by
  cases a <;> cases h <;> simp [EventType.status?]

end AlertType

/-! ## One commit -/

/-- What a commit writes: the transactions, the alerts and the entries. -/
inductive Logged (d : Database) :
    List Transaction → List FraudAlert → List AuditEntry → Prop
  | silent {es : List AuditEntry} :
      (∀ e ∈ es, e.eventType ∈ [EventType.sbpPaymentUnmatched, .chargebackUnmatched,
        .chargebackIneligible, .dossierViewed]) → Logged d [] [] es
  | created {t : Transaction} {as : List FraudAlert} {e : AuditEntry} :
      d.statusOf t.id = none → t.status = .pending → (∀ a ∈ as, a.alertType = .deviceReuse) →
      e.eventType = .depositCreated → e.transactionId = some t.id → Logged d [t] as [e]
  | moved {t : Transaction} {e : AuditEntry} : d.statusOf t.id ≠ some .chargeback →
      t.status ≠ .chargeback → e.eventType.status? = some t.status → e.transactionId = some t.id →
      Logged d [t] [] [e]
  | skipped {e : AuditEntry} :
      e.eventType ∈ [EventType.transferCompleted, .transferFailed, .transferError] →
      Logged d [] [] [e]
  | flagged {a : FraudAlert} {e : AuditEntry} : a.transactionId = e.transactionId →
      a.alertType ≠ .chargeback → a.alertType.event? = some e.eventType → Logged d [] [a] [e]
  | charged {t : Transaction} {a : FraudAlert} {e : AuditEntry} :
      d.statusOf t.id ≠ some .chargeback → t.status = .chargeback → a.alertType = .chargeback →
      a.transactionId = some t.id → e.eventType = .chargebackReceived →
      e.transactionId = some t.id → Logged d [t] [a] [e]

section Commit

variable {unicode : Unicode} {x : Txn signature} {s : Shared signature} {d : Database}
  {ts : List Transaction} {as : List FraudAlert} {es : List AuditEntry}

/-- What a list of writes is logged as. -/
abbrev LoggedWrites (d : Database) (ws : List Write) : Prop :=
  Logged d (ws.filterMap Write.transaction?) (ws.filterMap Write.alert?)
    (ws.filterMap Write.entry?)

theorem LoggedWrites.nil (d : Database) : LoggedWrites d [] := .silent (by simp)

theorem statusOf_of_find? {id : String} {t : Transaction}
    (h : d.transactions.find? id = some t) : d.statusOf t.id = some t.status := by
  rw [Table.key_of_find? h, Database.statusOf, h, Option.map_some]

theorem logged_deposit {settings : Settings} {r : DepositCreateRequest} {v : Result}
    (h : DepositOutcome x s settings r v) : LoggedWrites s.db x.pending := by
  cases h with
  | @created promoCodeId discount commission amountUsdt reserve alerts tid now now' t hres _
      hstored hfresh _ halerts hpending =>
    have hwritten {α : Type} (f : Write → Option α) (hc : ∀ c, f (.promoCode c) = none) :
        x.pending.filterMap f = [Write.transaction t].filterMap f ++ alerts.filterMap f ++
          [Write.audit (auditEntry .depositCreated (some r.user.id) (some tid)
            (depositDetails r promoCodeId) (storedIp r) r.deviceFingerprint r.userAgent
              now')].filterMap f := by
      have hreserve : reserve.filterMap f = [] := by
        cases hres <;> simp [hc]
      rw [hpending]
      simp only [List.filterMap_append, List.filterMap_cons, List.filterMap_nil, hreserve,
        List.nil_append]
      cases f (.transaction t) <;> rfl
    have hid : t.id = tid := hstored.id
    have hst : t.status = .pending := hstored.status
    rw [LoggedWrites, hwritten _ fun _ => rfl, hwritten _ fun _ => rfl, hwritten _ fun _ => rfl]
    have hnone : alerts.filterMap Write.transaction? = [] ∧ alerts.filterMap Write.entry? = [] := by
      rcases halerts with rfl | ⟨_, _, _, _, rfl⟩ <;> exact ⟨rfl, rfl⟩
    rw [hnone.1, hnone.2]
    refine .created ?_ hst ?_ rfl ?_
    · rw [Database.statusOf, hfresh, Option.map_none]
    · rcases halerts with rfl | ⟨_, _, _, _, rfl⟩ <;>
        simp [Write.alert?, List.filterMap_cons, deviceReuseAlert]
    · rw [hid]
      rfl

theorem logged_payment {p : SBPPaymentWebhook} {holdMinutes : ℤ}
    (h : PaymentOutcome x s p holdMinutes) : LoggedWrites s.db x.pending := by
  cases h with
  | unmatched _ hpending =>
    rw [hpending]
    exact .silent (by simp [Write.entry?, auditEntry])
  | ignored _ _ hpending =>
    rw [hpending]
    exact .nil _
  | mismatched _ _ _ _ _ hpending =>
    rw [hpending]
    exact .flagged rfl (by simp [amountMismatchAlert]) rfl
  | @rejected t now now' release _ ht hst _ hrel hpending =>
    obtain ⟨q, -, -, rfl, -⟩ := hrel
    have hid : t.id = p.transactionId := Table.key_of_find? ht
    have hwritten {α : Type} (f : Write → Option α) (hc : ∀ c, f (.promoCode c) = none) :
        x.pending.filterMap f = [.transaction (t.reject p.sbpPaymentId now),
          .audit (auditEntry .sbpPaymentFailed none (some p.transactionId) p.modelDump
            none none none now')].filterMap f := by
      rw [hpending]
      simp only [List.cons_append, List.filterMap_append, List.filterMap_cons,
        filterMap_releaseWrites _ _ hc, List.nil_append]
    rw [LoggedWrites, hwritten _ fun _ => rfl, hwritten _ fun _ => rfl, hwritten _ fun _ => rfl]
    refine .moved (t := t.reject p.sbpPaymentId now) ?_ (by simp [Transaction.reject]) rfl
      (by rw [← hid]; rfl)
    have hsame : (t.reject p.sbpPaymentId now).id = t.id := rfl
    rw [hsame, statusOf_of_find? ht, hst]
    decide
  | @paid t _ _ _ _ now _ _ _ _ ht hst _ _ _ _ _ _ _ hpending =>
    have hid : t.id = p.transactionId := Table.key_of_find? ht
    rw [hpending]
    refine .moved (t := t.pay p.sbpPaymentId now) ?_ (by simp [Transaction.pay]) rfl
      (by rw [← hid]; rfl)
    have hsame : (t.pay p.sbpPaymentId now).id = t.id := rfl
    rw [hsame, statusOf_of_find? ht, hst]
    decide

theorem logged_chargeback {p : SBPChargebackWebhook} (h : ChargebackOutcome x s p) :
    LoggedWrites s.db x.pending := by
  cases h with
  | unmatched _ _ hpending =>
    rw [hpending]
    exact .silent (by simp [Write.entry?, auditEntry])
  | duplicate _ _ hpending =>
    rw [hpending]
    exact .nil _
  | ineligible _ _ _ hpending =>
    rw [hpending]
    exact .silent (by simp [Write.entry?, auditEntry])
  | @charged d u q release id' id'' now now₁ now₂ now₃ ht hst _ _ _ _ _ hrel _ hpending =>
    obtain ⟨q', -, -, rfl, -⟩ := hrel
    have hne : d.transaction.status ≠ .chargeback := by
      intro he
      simp [he, chargebackEligibleStatuses] at hst
    have hsame : (d.transaction.dispute now).id = d.transaction.id := rfl
    rw [hpending, LoggedWrites,
      filterMap_chargebackWrites (fun _ => rfl) (fun _ => rfl) fun _ => rfl,
      filterMap_chargebackWrites (fun _ => rfl) (fun _ => rfl) fun _ => rfl,
      filterMap_chargebackWrites (fun _ => rfl) (fun _ => rfl) fun _ => rfl]
    refine .charged (t := d.transaction.dispute now) ?_ rfl rfl rfl rfl rfl
    rw [hsame, statusOf_of_find? ht]
    simpa using hne

/-- The worker's entry, with the update of the transaction or without. -/
theorem logged_paidUpdate {y y' : BingxTransfer} {set : Transaction → Transaction}
    {ws : List Write} {e : EventType} {payload : Details} {now now' : Timestamp}
    (h : PaidUpdate x s y set ws) (hset : ∀ t, (set t).id = t.id)
    (hst : ∀ t, e.status? = some (set t).status) (hne : ∀ t, (set t).status ≠ .chargeback)
    (he : e ∈ [EventType.transferCompleted, .transferFailed, .transferError]) :
    LoggedWrites s.db (.bingxTransfer (claim now y) :: (.bingxTransfer y' :: ws ++
      [transferAudit e y payload now'])) := by
  obtain ⟨q, -, -, t, -, ⟨hpaid, ht, rfl⟩ | ⟨-, rfl⟩⟩ := h
  · have hid : t.id = y.transactionId := Table.key_of_find? ht
    refine .moved (t := set t) ?_ (hne t) (hst t) (by rw [hset, hid]; rfl)
    rw [hset, statusOf_of_find? ht, hpaid]
    decide
  · exact .skipped he

theorem logged_worker {settings : WorkerSettings} {v : Result}
    (h : WorkerOutcome x s unicode settings v) : LoggedWrites s.db x.pending := by
  cases h with
  | idle hpending =>
    rw [hpending]
    exact .nil _
  | @processed y now a ws _ _ hrec hpending =>
    rw [hpending]
    generalize answerRoute unicode a = route at hrec
    cases hrec with
    | completed _ _ hp =>
      exact logged_paidUpdate hp (fun _ => rfl) (fun _ => rfl)
        (fun t => by simp [Transaction.complete]) (by decide)
    | held => exact .flagged rfl (by simp [lowBalanceAlert]) rfl
    | failed _ hp =>
      exact logged_paidUpdate hp (fun _ => rfl) (fun _ => rfl)
        (fun t => by simp [Transaction.fail]) (by decide)
    | retried => exact .silent (by simp [Write.entry?])
    | escalated _ _ hp =>
      exact logged_paidUpdate hp (fun _ => rfl) (fun _ => rfl)
        (fun t => by simp [Transaction.escalate]) (by decide)

/-- The step lemma: what a job that commits has logged. -/
theorem Outcome.logged {j : Job} {v : Result} (h : Outcome unicode j v x s) :
    LoggedWrites s.db x.pending := by
  have hsilent {ws : List Write} (hws : x.pending = ws) (ht : ws.filterMap Write.transaction? = [])
      (ha : ws.filterMap Write.alert? = []) (he : ws.filterMap Write.entry? = []) :
      LoggedWrites s.db x.pending := by
    rw [hws, LoggedWrites, ht, ha, he]
    exact .silent (by simp)
  cases j with
  | createDeposit settings r => exact logged_deposit h.1
  | sbpPaymentWebhook p holdMinutes => exact logged_payment h.1
  | sbpChargebackWebhook p => exact logged_chargeback h.1
  | processTransfer settings => exact logged_worker h
  | resetOnHold transferId =>
    cases h.1 with
    | ignored hpending => exact hsilent hpending rfl rfl rfl
    | reset _ _ hpending => exact hsilent hpending rfl rfl rfl
  | addBlacklistEntry r =>
    cases h.1 with
    | added hpending => exact hsilent hpending rfl rfl rfl
  | manageBlacklist change => cases h.1 <;> exact hsilent ‹_› rfl rfl rfl
  | editPromoCode id form =>
    cases h.1 with
    | ignored hpending => exact hsilent hpending rfl rfl rfl
    | edited _ _ _ _ hpending => exact hsilent hpending rfl rfl rfl
  | transactionDossier adminId transactionId =>
    cases h.1 with
    | viewed hpending =>
      rw [hpending]
      exact .silent (by simp [Write.entry?, auditEntry])

end Commit

/-! ## Counting -/

/-- The alerts of a kind for a transaction. -/
def alertCount (type : AlertType) (id : String) (as : List FraudAlert) : ℕ :=
  as.countP fun a => decide (a.alertType = type ∧ a.transactionId = some id)

/-- The entries of an event for a transaction. -/
def entryCount (event : EventType) (id : String) (es : List AuditEntry) : ℕ :=
  es.countP fun e => decide (e.eventType = event ∧ e.transactionId = some id)

theorem alertCount_append (type : AlertType) (id : String) (as bs : List FraudAlert) :
    alertCount type id (as ++ bs) = alertCount type id as + alertCount type id bs :=
  List.countP_append

theorem entryCount_append (event : EventType) (id : String) (es fs : List AuditEntry) :
    entryCount event id (es ++ fs) = entryCount event id es + entryCount event id fs :=
  List.countP_append

section Commit

variable {d : Database} {ws : List Write} {id : String}

/-- As many alerts as entries. -/
theorem Logged.count_eq {ts : List Transaction} {as : List FraudAlert} {es : List AuditEntry}
    (h : Logged d ts as es) {type : AlertType} {event : EventType}
    (he : type.event? = some event) : alertCount type id as = entryCount event id es := by
  obtain ⟨hreuse, hdeposit, hsilent, hworker, hstatus⟩ := AlertType.of_event? he
  have hquiet (e : AuditEntry) (hne : e.eventType ≠ event) : entryCount event id [e] = 0 := by
    simp [entryCount, hne]
  cases h with
  | silent hes =>
    refine (List.countP_eq_zero.mpr fun e hmem => ?_).symm
    have hne : e.eventType ≠ event := fun h => hsilent (h ▸ hes e hmem)
    simp [hne]
  | created _ _ has hevent =>
    have hnone : alertCount type id as = 0 := by
      refine List.countP_eq_zero.mpr fun a ha => ?_
      simp [has a ha, hreuse.symm]
    rw [hnone, hquiet _ (hevent ▸ hdeposit.symm)]
  | moved _ hne hst => exact (hquiet _ fun h => hne (hstatus _ (h ▸ hst))).symm
  | skipped hevent => exact (hquiet _ fun h => hworker (h ▸ hevent)).symm
  | flagged hid hne hevent =>
    simp only [alertCount, entryCount, List.countP_singleton, hid,
      AlertType.eq_iff_of_event? hevent he]
  | charged _ _ htype hid hevent hid' =>
    have hiff := AlertType.eq_iff_of_event? (a := .chargeback) rfl he
    simp only [alertCount, entryCount, List.countP_singleton, hid, hid', htype, hevent, hiff]

/-- One alert is written with the status of a charged back deposit, and none otherwise. -/
theorem Logged.charged_eq {ts : List Transaction} {as : List FraudAlert} {es : List AuditEntry}
    (h : Logged d ts as es) {d' : Database}
    (hd : d'.transactions = ts.foldl (fun rows t => rows.put t) d.transactions) :
    (if d'.statusOf id = some .chargeback then 1 else 0) =
      (if d.statusOf id = some .chargeback then 1 else 0) + alertCount .chargeback id as := by
  have hnone (hd : d'.transactions = d.transactions) : d'.statusOf id = d.statusOf id := by
    rw [Database.statusOf, Database.statusOf, hd]
  have hsome {t : Transaction} (hd : d'.transactions = d.transactions.put t) :
      d'.statusOf id = if t.id = id then some t.status else d.statusOf id :=
    Database.statusOf_put hd
  cases h with
  | silent => rw [hnone hd]; rfl
  | skipped => rw [hnone hd]; rfl
  | flagged _ hne => rw [hnone hd]; simp [alertCount, hne]
  | @created t _ _ hbefore hst has =>
    have halerts : alertCount .chargeback id as = 0 :=
      List.countP_eq_zero.mpr fun a ha => by simp [has a ha]
    rw [hsome hd, halerts]
    split
    · next hid =>
      subst hid
      rw [hbefore, hst]
      decide
    · rfl
  | @moved t _ hbefore hafter =>
    rw [hsome hd]
    split
    · next hid =>
      subst hid
      rw [if_neg hbefore, if_neg (by simpa using hafter)]
      rfl
    · rfl
  | @charged t a _ hbefore hafter htype hid' =>
    rw [hsome hd]
    split
    · next hid =>
      subst hid
      rw [if_neg hbefore, hafter]
      simp [alertCount, htype, hid']
    · next hid => simp [alertCount, hid', hid]

end Commit

/-! ## Every history -/

/-- There are no alerts and no entries for any transaction. -/
structure Unlogged (d : Database) : Prop where
  alerts : ∀ a ∈ d.fraudAlerts, a.transactionId = none
  entries : ∀ e ∈ d.auditLog, e.transactionId = none

/-- The logs of a database agree with its transactions. -/
structure LogsAgree (d : Database) : Prop where
  alerts : ∀ type event, AlertType.event? type = some event →
    ∀ id, alertCount type id d.fraudAlerts = entryCount event id d.auditLog
  charged : ∀ id, alertCount .chargeback id d.fraudAlerts =
    if d.statusOf id = some .chargeback then 1 else 0
  recorded : ∀ id st, d.statusOf id = some st →
    ∃ e ∈ d.auditLog, e.transactionId = some id ∧ e.eventType.status? = some st

theorem Unlogged.logsAgree {d : Database} (h : Unlogged d) (ht : d.transactions.rows = []) :
    LogsAgree d := by
  have hstatus (id : String) : d.statusOf id = none := by
    rw [Database.statusOf, Option.map_eq_none_iff, Table.find?_eq_none]
    simp [ht]
  have halerts (type : AlertType) (id : String) : alertCount type id d.fraudAlerts = 0 :=
    List.countP_eq_zero.mpr fun a ha => by simp [h.alerts a ha]
  have hentries (event : EventType) (id : String) : entryCount event id d.auditLog = 0 :=
    List.countP_eq_zero.mpr fun e he => by simp [h.entries e he]
  refine ⟨fun type event _ id => ?_, fun id => ?_, fun id st hst => ?_⟩
  · rw [halerts, hentries]
  · rw [halerts, hstatus]
    rfl
  · rw [hstatus] at hst
    cases hst

/-- A transaction that is written has its entry. -/
theorem Logged.recorded {d : Database} {ts : List Transaction} {as : List FraudAlert}
    {es : List AuditEntry} (h : Logged d ts as es) :
    ∀ t ∈ ts, ∃ e ∈ es, e.transactionId = some t.id ∧ e.eventType.status? = some t.status := by
  cases h with
  | silent | skipped | flagged => simp
  | created _ hst _ hevent hid => simp [hid, hevent, hst, EventType.status?]
  | moved _ _ hst hid => simp [hid, hst]
  | charged _ hst _ _ hevent hid => simp [hid, hevent, hst, EventType.status?]

theorem LogsAgree.commit {d : Database} {ws : List Write} (hd : LogsAgree d)
    (h : LoggedWrites d ws) : LogsAgree (replay ws d) := by
  refine ⟨fun type event he id => ?_, fun id => ?_, fun id st hst => ?_⟩
  · rw [Database.fraudAlerts_replay, Database.auditLog_replay, alertCount_append,
      entryCount_append, hd.alerts type event he id, h.count_eq he]
  · rw [Database.fraudAlerts_replay, alertCount_append, hd.charged id,
      h.charged_eq (Database.transactions_replay_eq ws)]
  · obtain ⟨t, ht, rfl⟩ := Option.map_eq_some_iff.mp hst
    rw [Database.auditLog_replay]
    rcases Database.transaction_replay ht with ⟨hw, rfl⟩ | ⟨hold, -⟩
    · obtain ⟨e, he, hid, hstatus⟩ := h.recorded t (List.mem_filterMap.mpr ⟨_, hw, rfl⟩)
      exact ⟨e, List.mem_append_right _ he, hid, hstatus⟩
    · obtain ⟨e, he, hrec⟩ := hd.recorded id t.status (by rw [Database.statusOf, hold]; rfl)
      exact ⟨e, List.mem_append_left _ he, hrec⟩

section

variable {unicode : Unicode} {start : Shared signature} {tr : List (Transition signature)}
  {w : World signature}

theorem run_logsAgree (hs : Opening start) (hlogs : Unlogged start.db)
    (hr : Run (bank unicode) start tr w) (hj : Contract.Starts Job.Together tr) :
    LogsAgree w.shared.db := by
  refine (together_valid unicode).induction hs.inv (motive := fun _ w => LogsAgree w.shared.db)
    (hlogs.logsAgree hs.transactions) ?_ hr hj
  intro tr w a w' _ _ _ hchange ih
  rcases hchange.together fun _ hj => hj with ⟨-, he⟩ | ⟨s, v, -, -, ho, -, he⟩
  · rw [he]
    exact ih
  · rw [he]
    exact ih.commit ho.logged

/-- In every state there are as many alerts of a kind for a deposit as entries of the event
they go with, and a deposit has a chargeback alert exactly when it is charged back, and no
second one. -/
theorem alerts_accounted (hs : Opening start) (hlogs : Unlogged start.db)
    (hr : Run (bank unicode) start tr w) (hj : Contract.Starts Job.Together tr) (id : String) :
    (∀ type event, AlertType.event? type = some event →
      alertCount type id w.shared.db.fraudAlerts = entryCount event id w.shared.db.auditLog) ∧
    alertCount .chargeback id w.shared.db.fraudAlerts =
      if w.shared.db.statusOf id = some .chargeback then 1 else 0 :=
  have h := run_logsAgree hs hlogs hr hj
  ⟨fun type event he => h.alerts type event he id, h.charged id⟩

end

theorem unlogged_launch : Unlogged launch.db := ⟨by simp [launch], by simp [launch]⟩

/-- A payout is on hold, and its deposit is charged back. -/
def chargedOnHold : List (Action signature) :=
  heldDeposit ++ disputeDeposit 0 ++ blacklistDeposit 0 ++ [commit 0]

theorem alerts_accounted_held : ∃ tr w, Run (bank .ascii) launch tr w ∧
    statuses w = (some .chargeback, some .onHold) ∧
    alertCount .chargeback "deposit" w.shared.db.fraudAlerts = 1 ∧
    alertCount .lowBalance "deposit" w.shared.db.fraudAlerts =
      entryCount .transferOnHold "deposit" w.shared.db.auditLog := by
  obtain ⟨tr, w, hr, hactions, hw⟩ := Run.exists_of_trace (bank .ascii) launch chargedOnHold
    (fun r => (statuses r.2, r.2.shared.db.statusOf "deposit"))
    (b := ((some .chargeback, some .onHold), some .chargeback)) (by decide)
  obtain ⟨hstatuses, hstatus⟩ := Prod.mk.inj hw
  obtain ⟨hcount, hcharged⟩ := alerts_accounted opening_launch unlogged_launch hr
    (Contract.Starts.of_actions hactions (by decide)) "deposit"
  refine ⟨tr, w, hr, hstatuses, ?_, hcount _ _ rfl⟩
  rw [hcharged, hstatus]
  rfl

end MoneyWay
