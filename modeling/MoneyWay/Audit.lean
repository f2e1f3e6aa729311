import MoneyWay.Coherence

/-!
# The audit log accounts for every status

Status and event are written by separate statements, and the worker writes its event also
where its guarded update of the transaction finds nothing. As long as nobody returns a held
transfer to the queue this does not happen: the transfers a worker can claim are those of
paid deposits.
-/

set_option autoImplicit false

namespace MoneyWay

open Keyed ReadCommitted Python Sql

/-- The status an event gives to its transaction. -/
def EventType.status? : EventType → Option TransactionStatus
  | .depositCreated => some .pending
  | .sbpPaymentPaid => some .paid
  | .sbpPaymentFailed => some .failed
  | .transferCompleted => some .completed
  | .transferError => some .error
  | .transferFailed => some .failed
  | .chargebackReceived => some .chargeback
  | _ => none

/-- The statuses the entries of a transaction give it, in the order of the log. -/
def recordedStatuses (id : String) (log : List AuditEntry) : List TransactionStatus :=
  (log.filter fun e => e.transactionId = some id).filterMap fun e => e.eventType.status?

/-- What one entry makes of the status of a transaction. -/
def AuditEntry.advance (id : String) (st : Option TransactionStatus) (e : AuditEntry) :
    Option TransactionStatus :=
  if e.transactionId = some id then e.eventType.status?.or st else st

/-- The status of a transaction by its entries. -/
def replayStatus (id : String) (log : List AuditEntry) : Option TransactionStatus :=
  log.foldl (AuditEntry.advance id) none

/-- The status of a transaction by its row. -/
def Database.statusOf (d : Database) (id : String) : Option TransactionStatus :=
  (d.transactions.find? id).map (·.status)

theorem recordedStatuses_eq_nil {id : String} {log : List AuditEntry}
    (h : ∀ e ∈ log, e.eventType.status? = none) : recordedStatuses id log = [] := by
  rw [recordedStatuses, List.filterMap_eq_nil_iff]
  exact fun e he => h e (List.mem_filter.mp he).1

theorem recordedStatuses_cons (id : String) (e : AuditEntry) (log : List AuditEntry) :
    recordedStatuses id (e :: log) =
      (if e.transactionId = some id then e.eventType.status?.toList else []) ++
        recordedStatuses id log := by
  unfold recordedStatuses
  by_cases he : e.transactionId = some id
  · rw [List.filter_cons_of_pos (by simpa using he), List.filterMap_cons, if_pos he]
    cases e.eventType.status? <;> rfl
  · rw [List.filter_cons_of_neg (by simpa using he), if_neg he, List.nil_append]

theorem foldl_advance (id : String) (st : Option TransactionStatus) (log : List AuditEntry) :
    log.foldl (AuditEntry.advance id) st = (recordedStatuses id log).getLast?.or st := by
  induction log generalizing st with
  | nil => rfl
  | cons e log ih =>
    rw [List.foldl_cons, ih, recordedStatuses_cons, List.getLast?_append, Option.or_assoc,
      AuditEntry.advance]
    congr 1
    split
    · cases e.eventType.status? <;> rfl
    · rfl

/-- Only the last status counts. -/
theorem replayStatus_append (id : String) (log es : List AuditEntry) :
    replayStatus id (log ++ es) = (recordedStatuses id es).getLast?.or (replayStatus id log) := by
  rw [replayStatus, List.foldl_append, foldl_advance]
  rfl

namespace Database

variable {d : Database} {id : String}

/-- The transactions after a list of writes. -/
theorem transactions_replay_eq (ws : List Write) : (replay ws d).transactions =
    (ws.filterMap Write.transaction?).foldl (fun ts t => ts.put t) d.transactions := by
  induction ws generalizing d with
  | nil => rfl
  | cons w ws ih =>
    rw [replay_cons, ih]
    cases w <;> rfl

theorem statusOf_put {t : Transaction} {d' : Database}
    (h : d'.transactions = d.transactions.put t) :
    d'.statusOf id = if t.id = id then some t.status else d.statusOf id := by
  unfold statusOf
  rw [h]
  split
  · next hid =>
    subst hid
    rw [Table.find?_put_self, Option.map_some]
  · next hid => rw [Table.find?_put_ne _ hid]

end Database

/-! ## A commit -/

/-- What a list of writes records of a transaction: nothing, and its status stays, or the
one status it goes to. -/
def RecordsStatus (d : Database) (ws : List Write) (id : String) : Prop :=
  recordedStatuses id (ws.filterMap Write.entry?) = [] ∧
      (replay ws d).statusOf id = d.statusOf id ∨
    ∃ st, recordedStatuses id (ws.filterMap Write.entry?) = [st] ∧
      (replay ws d).statusOf id = some st ∧ d.statusOf id ≠ some st

namespace RecordsStatus

variable {d : Database} {ws : List Write} {id : String}

theorem of_silent (ht : ws.filterMap Write.transaction? = [])
    (he : ∀ e ∈ ws.filterMap Write.entry?, e.eventType.status? = none) :
    RecordsStatus d ws id := by
  refine .inl ⟨recordedStatuses_eq_nil he, ?_⟩
  rw [Database.statusOf, Database.transactions_replay_eq, ht]
  rfl

/-- One transaction is written that goes to another status, and one entry for it. -/
theorem of_change {t : Transaction} {e : AuditEntry} (ht : ws.filterMap Write.transaction? = [t])
    (he : ws.filterMap Write.entry? = [e]) (hid : e.transactionId = some t.id)
    (hst : e.eventType.status? = some t.status) (hne : d.statusOf t.id ≠ some t.status) :
    RecordsStatus d ws id := by
  have hput : (replay ws d).transactions = d.transactions.put t := by
    rw [Database.transactions_replay_eq, ht]
    rfl
  have hstatus : (replay ws d).statusOf id = if t.id = id then some t.status else d.statusOf id :=
    Database.statusOf_put hput
  by_cases h : t.id = id
  · subst h
    rw [if_pos rfl] at hstatus
    exact .inr ⟨t.status, by simp [he, recordedStatuses, hid, hst], hstatus, hne⟩
  · rw [if_neg h] at hstatus
    exact .inl ⟨by simp [he, recordedStatuses, hid, h], hstatus⟩

end RecordsStatus

/-! ## What a worker can claim -/

/-- A transfer that a worker can claim is that of a paid deposit. -/
def File.Live (f : File) : Prop :=
  ∀ y ∈ f.transfer, y.status = .pending → f.transaction.status = .paid

/-- There is a transfer that no worker can claim. -/
def File.Parked (f : Option File) : Prop := ∃ g ∈ f, ∃ y ∈ g.transfer, y.status ≠ .pending

def Live (s : Shared signature) : Prop := ∀ id f, s.db.file id = some f → f.Live

/-- A request or a whole step of the worker. -/
def Job.Unaided (j : Job) : Prop := j.Together ∧ ∀ transferId, j ≠ .resetOnHold transferId

instance (j : signature.Job) : Decidable (Job.Unaided j) :=
  match j with
  | .resetOnHold transferId => .isFalse fun h => h.2 transferId rfl
  | .createDeposit .. | .sbpPaymentWebhook .. | .sbpChargebackWebhook .. | .processTransfer ..
  | .addBlacklistEntry .. | .manageBlacklist .. | .editPromoCode .. | .transactionDossier .. =>
    decidable_of_iff (Job.Together _) ⟨fun h => ⟨h, nofun⟩, And.left⟩

/-- A worker that returns the transfer to the queue leaves the transaction alone. -/
theorem Settled.eq_none_of_pending {y y' : BingxTransfer} {now : Timestamp} {route : Route}
    {set : Option (Transaction → Transaction)} (h : Settled y now route y' set)
    (hy : y'.status = .pending) : set = none := by
  cases h with
  | retried => rfl
  | completed => simp [BingxTransfer.complete] at hy
  | held | failed | escalated => simp [BingxTransfer.settle] at hy

section Commit

variable {unicode : Unicode} {x : Txn signature} {s : Shared signature} {id : String}

/-- The step lemma: without resets a commit leaves no claimable transfer to a deposit that
is not paid. -/
theorem FileStep.live {j : Job} {v : Result} {f f' : Option File}
    (hno : ∀ transferId, j ≠ .resetOnHold transferId) (hseen : Seen x s)
    (hparked : ∀ q ∈ x.snapshots, File.Parked (q.db.file id) → File.Parked f)
    (hstep : FileStep unicode x s id j v f f')
    (hf : ∀ g ∈ f, File.Agrees heldStatuses True g) (hlive : ∀ g ∈ f, g.Live) :
    (∀ g ∈ f', g.Live) ∧ (File.Parked f → File.Parked f') := by
  cases hstep with
  | kept => exact ⟨hlive, fun h => h⟩
  | created _ hstored =>
    constructor
    · intro g hg
      cases hg
      exact fun y hy => absurd hy (by simp)
    · rintro ⟨g, hg, -⟩
      cases hg
  | rejected =>
    constructor
    · intro g hg
      cases hg
      exact fun y hy => absurd hy (by simp)
    · rintro ⟨g, hg, y, hy, -⟩
      cases hg
      cases hy
  | paid =>
    constructor
    · intro g hg
      cases hg
      exact fun _ _ _ => rfl
    · rintro ⟨g, hg, y, hy, -⟩
      cases hg
      cases hy
  | @cancelled p v t y k now q =>
    have hst : (y.cancel now).status ≠ .pending := by simp [BingxTransfer.cancel]
    refine ⟨fun g hg => ?_, fun _ => ⟨_, rfl, _, rfl, hst⟩⟩
    cases hg
    intro z hz hpending
    cases hz
    exact absurd hpending hst
  | @disputed p v t m m' k now q _ ht hq hread hleft =>
    have hmem := List.mem_of_getElem? hq
    obtain ⟨-, hagreed, -⟩ := hseen _ hmem
    obtain ⟨z, -, rfl, -, -⟩ := (hagreed _ _ hread).of_eligible ht
    -- its transfer was not claimable when it was read, and is not now
    have hbefore : File.Parked (q.db.file id) := by
      rw [hread]
      exact ⟨_, rfl, z, rfl, (hleft z rfl).1⟩
    obtain ⟨g, hg, y, hy, hne⟩ := hparked q hmem hbefore
    cases hg
    refine ⟨fun g hg => ?_, fun _ => ⟨_, rfl, y, hy, hne⟩⟩
    cases hg
    intro z' hz' hpending
    cases hy.symm.trans hz'
    exact absurd hpending hne
  | @recorded settings y y' now a set t t' k _ hclaimed _ hset hupdated =>
    have hpending := hclaimed.pending (hf _ rfl)
    have hpaid : t.status = .paid := hlive _ rfl y rfl hpending
    constructor
    · intro g hg
      cases hg
      intro z hz hst
      cases hz
      obtain rfl := hset.eq_none_of_pending hst
      cases hupdated
      exact hpaid
    · rintro ⟨g, hg, z, hz, hne⟩
      cases hg
      cases hz
      exact absurd hpending hne
  | reset => exact absurd rfl (hno _)

/-- The guard of the worker never fails: what it has claimed is the transfer of a paid
deposit. -/
theorem PaidUpdate.eq {y : BingxTransfer} {set : Transaction → Transaction} {ws : List Write}
    (h : PaidUpdate x s y set ws) (hlive : ∀ q ∈ x.snapshots, Inv q ∧ Live q)
    (hy : y.status = .pending) :
    ∃ t, s.db.transactions.find? y.transactionId = some t ∧ t.status = .paid ∧
      ws = [.transaction (set t)] := by
  obtain ⟨q, hq, hrow, t, ht, ⟨hst, hnow, rfl⟩ | ⟨hne, -⟩⟩ := h
  · exact ⟨t, hnow, hst, rfl⟩
  · obtain ⟨hinv, hl⟩ := hlive q hq
    obtain ⟨t₀, ht₀, -, hfile⟩ := Database.file_of_transfer hinv.sound (Table.mem_of_find? hrow)
    rw [ht] at ht₀
    cases ht₀
    exact absurd (hl _ _ hfile y rfl hy) hne

/-- A guarded update with its entry. -/
theorem records_paidUpdate {y y' : BingxTransfer} {set : Transaction → Transaction}
    {ws : List Write} {e : EventType} {payload : Details} {now now' : Timestamp}
    (h : PaidUpdate x s y set ws) (hlive : ∀ q ∈ x.snapshots, Inv q ∧ Live q)
    (hy : y.status = .pending) (hset : ∀ t, (set t).id = t.id)
    (hst : ∀ t, e.status? = some (set t).status) (hne : ∀ t, (set t).status ≠ .paid) :
    RecordsStatus s.db (.bingxTransfer (claim now y) :: (.bingxTransfer y' :: ws ++
      [transferAudit e y payload now'])) id := by
  obtain ⟨t, ht, hpaid, rfl⟩ := h.eq hlive hy
  have hid : t.id = y.transactionId := Table.key_of_find? ht
  refine .of_change (t := set t) rfl rfl (by simp [auditEntry, hset, hid]) (hst t) ?_
  rw [hset, hid, Database.statusOf, ht]
  simpa [hpaid] using (hne t).symm

theorem records_worker {settings : WorkerSettings} {v : Result}
    (h : WorkerOutcome x s unicode settings v) (hs : Inv s) (hagreed : Agreed s)
    (hlive : ∀ q ∈ x.snapshots, Inv q ∧ Live q) : RecordsStatus s.db x.pending id := by
  cases h with
  | idle hpending => exact .of_silent (by simp [hpending]) (by simp [hpending])
  | @processed y now a ws hclaimed _ hrec hpending =>
    obtain ⟨t, -, -, hfile⟩ := Database.file_of_transfer hs.sound (Table.mem_of_find? hclaimed.row)
    have hy := hclaimed.pending (hagreed _ _ hfile)
    rw [hpending]
    generalize answerRoute unicode a = route at hrec
    cases hrec with
    | completed _ _ hp =>
      exact records_paidUpdate hp hlive hy (fun _ => rfl) (fun _ => rfl) fun t =>
        by simp [Transaction.complete]
    | held =>
      exact .of_silent rfl (by simp [Write.entry?, transferAudit, auditEntry, EventType.status?])
    | failed _ hp =>
      exact records_paidUpdate hp hlive hy (fun _ => rfl) (fun _ => rfl) fun t =>
        by simp [Transaction.fail]
    | retried => exact .of_silent rfl (by simp [Write.entry?])
    | escalated _ _ hp =>
      exact records_paidUpdate hp hlive hy (fun _ => rfl) (fun _ => rfl) fun t =>
        by simp [Transaction.escalate]

theorem records_deposit {settings : Settings} {r : DepositCreateRequest} {v : Result}
    (h : DepositOutcome x s settings r v) : RecordsStatus s.db x.pending id := by
  cases h with
  | @created promoCodeId discount commission amountUsdt reserve alerts tid now now' t hres _
      hstored hfresh _ halerts hpending =>
    have hwritten {α : Type} (f : Write → Option α) (hc : ∀ c, f (.promoCode c) = none)
        (ha : ∀ a, f (.fraudAlert a) = none) : x.pending.filterMap f =
          [.transaction t, .audit (auditEntry .depositCreated (some r.user.id) (some tid)
            (depositDetails r promoCodeId) (storedIp r) r.deviceFingerprint r.userAgent
              now')].filterMap f := by
      have hreserve : reserve.filterMap f = [] := by
        cases hres <;> simp [hc]
      have halert : alerts.filterMap f = [] := by
        rcases halerts with rfl | ⟨_, _, _, _, rfl⟩ <;> simp [ha]
      rw [hpending]
      simp only [List.filterMap_append, List.filterMap_cons, hreserve, halert, List.nil_append]
      cases f (.transaction t) <;> rfl
    have hid : t.id = tid := hstored.id
    have hst : t.status = .pending := hstored.status
    refine .of_change (hwritten _ (fun _ => rfl) fun _ => rfl)
      (hwritten _ (fun _ => rfl) fun _ => rfl) (by rw [hid]; rfl) (by rw [hst]; rfl) ?_
    simp [Database.statusOf, hfresh]

theorem records_payment {p : SBPPaymentWebhook} {holdMinutes : ℤ}
    (h : PaymentOutcome x s p holdMinutes) : RecordsStatus s.db x.pending id := by
  cases h with
  | unmatched _ hpending =>
    exact .of_silent (by simp [hpending, Write.transaction?])
      (by simp [hpending, Write.entry?, auditEntry, EventType.status?])
  | ignored _ _ hpending => exact .of_silent (by simp [hpending]) (by simp [hpending])
  | mismatched _ _ _ _ _ hpending =>
    exact .of_silent (by simp [hpending, Write.transaction?])
      (by simp [hpending, Write.entry?, auditEntry, EventType.status?])
  | @rejected t now now' release _ ht hst _ hrel hpending =>
    obtain ⟨q, -, -, rfl, -⟩ := hrel
    have hid : t.id = p.transactionId := Table.key_of_find? ht
    have hwritten {α : Type} (f : Write → Option α) (hc : ∀ c, f (.promoCode c) = none) :
        x.pending.filterMap f = [.transaction (t.reject p.sbpPaymentId now),
          .audit (auditEntry .sbpPaymentFailed none (some p.transactionId) p.modelDump
            none none none now')].filterMap f := by
      rw [hpending]
      simp only [List.cons_append, List.filterMap_append, List.filterMap_cons,
        filterMap_releaseWrites _ _ hc, List.nil_append]
    refine .of_change (hwritten _ fun _ => rfl) (hwritten _ fun _ => rfl) (by rw [← hid]; rfl) rfl
      ?_
    simp [Transaction.reject, hid, Database.statusOf, ht, hst]
  | @paid t _ _ _ _ now _ _ _ _ ht hst _ _ _ _ _ _ _ hpending =>
    have hid : t.id = p.transactionId := Table.key_of_find? ht
    rw [hpending]
    refine .of_change (t := t.pay p.sbpPaymentId now) rfl rfl
      (by simp [auditEntry, Transaction.pay, hid]) rfl ?_
    simp [Transaction.pay, hid, Database.statusOf, ht, hst]

theorem records_chargeback {p : SBPChargebackWebhook} (h : ChargebackOutcome x s p) :
    RecordsStatus s.db x.pending id := by
  cases h with
  | unmatched _ _ hpending =>
    exact .of_silent (by simp [hpending, Write.transaction?])
      (by simp [hpending, Write.entry?, auditEntry, EventType.status?])
  | duplicate _ _ hpending => exact .of_silent (by simp [hpending]) (by simp [hpending])
  | ineligible _ _ _ hpending =>
    exact .of_silent (by simp [hpending, Write.transaction?])
      (by simp [hpending, Write.entry?, auditEntry, EventType.status?])
  | @charged d u q release id' id'' now now₁ now₂ now₃ ht hst _ _ _ _ _ hrel _ hpending =>
    obtain ⟨q', -, -, rfl, -⟩ := hrel
    have hid : d.transaction.id = p.transactionId := Table.key_of_find? ht
    rw [hpending]
    have hne : d.transaction.status ≠ .chargeback := by
      intro he
      simp [he, chargebackEligibleStatuses] at hst
    refine .of_change (filterMap_chargebackWrites (fun _ => rfl) (fun _ => rfl) fun _ => rfl)
      (filterMap_chargebackWrites (fun _ => rfl) (fun _ => rfl) fun _ => rfl) rfl rfl ?_
    simpa [Transaction.dispute, hid, Database.statusOf, ht] using hne

/-- The step lemma: what a job that commits has recorded. -/
theorem Outcome.records {j : Job} {v : Result} (h : Outcome unicode j v x s) (hs : Inv s)
    (hagreed : Agreed s) (hlive : ∀ q ∈ x.snapshots, Inv q ∧ Live q) :
    RecordsStatus s.db x.pending id := by
  cases j with
  | createDeposit settings r => exact records_deposit h.1
  | sbpPaymentWebhook p holdMinutes => exact records_payment h.1
  | sbpChargebackWebhook p => exact records_chargeback h.1
  | processTransfer settings => exact records_worker h hs hagreed hlive
  | resetOnHold transferId =>
    cases h.1 with
    | ignored hpending => exact .of_silent (by simp [hpending]) (by simp [hpending])
    | reset _ _ hpending =>
      exact .of_silent (by simp [hpending, Write.transaction?]) (by simp [hpending, Write.entry?])
  | addBlacklistEntry r =>
    cases h.1 with
    | added hpending =>
      exact .of_silent (by simp [hpending, Write.transaction?]) (by simp [hpending, Write.entry?])
  | manageBlacklist change =>
    have hnone : x.pending.filterMap Write.transaction? = [] ∧
        x.pending.filterMap Write.entry? = [] := by
      cases h.1 <;> simp [*, Write.transaction?, Write.entry?]
    exact .of_silent hnone.1 (by simp [hnone.2])
  | editPromoCode id form =>
    cases h.1 with
    | ignored hpending => exact .of_silent (by simp [hpending]) (by simp [hpending])
    | edited _ _ _ _ hpending =>
      exact .of_silent (by simp [hpending, Write.transaction?]) (by simp [hpending, Write.entry?])
  | transactionDossier adminId transactionId =>
    cases h.1 with
    | viewed hpending =>
      exact .of_silent (by simp [hpending, Write.transaction?])
        (by simp [hpending, Write.entry?, auditEntry, EventType.status?])

end Commit

/-! ## Every history -/

/-- The contract `payments` without resets: with agreement and liveness in the invariant,
and what is parked stays so. -/
def recording (unicode : Unicode) : Contract signature :=
  { payments unicode with
    inv := fun s => (Inv s ∧ Agreed s) ∧ Live s
    guar := fun s s' => Guar s s' ∧
      ∀ id, File.Parked (s.db.file id) → File.Parked (s'.db.file id) }

theorem recording_past {unicode : Unicode} {x : Txn signature} {s : Shared signature}
    (h : (recording unicode).Past x s) : Seen x s ∧ (∀ q ∈ x.snapshots, Inv q ∧ Live q) ∧
      ∀ q ∈ x.snapshots, ∀ id, File.Parked (q.db.file id) → File.Parked (s.db.file id) := by
  refine ⟨fun q hq => ?_, fun q hq => ⟨(h q hq).1.1.1, (h q hq).1.2⟩, fun q hq id => ?_⟩
  · obtain ⟨⟨⟨hinv, hagreed⟩, -⟩, hleads⟩ := h q hq
    exact ⟨hinv, hagreed, hleads.lift (r := fun s s' => Persists s.db s'.db)
      (fun s => Persists.refl s.db) (fun _ _ _ => Persists.trans)
      fun _ _ (hg : Guar _ _ ∧ _) => hg.1.db.persists⟩
  · refine (h q hq).2.stable (p := fun s : Shared signature => File.Parked (s.db.file id)) ?_
    rintro s s' - ⟨-, hparked⟩ -
    exact hparked id

theorem recording_valid (unicode : Unicode) :
    (recording unicode).Valid (bank unicode) Job.Unaided := by
  refine ((agreeing_valid unicode).mono fun _ hj => hj.1).refine (fun _ hj => hj.1) _
    (fun _ h => h.1) (fun _ _ h => h.1) rfl rfl rfl (fun s y hs hl => ?_)
    fun j v x s hj hs hpast ho hl => ?_
  · exact ⟨⟨hl.guar, fun _ h => h⟩, hl.inv', hs.2⟩
  · obtain ⟨hseen, -, hparked⟩ := recording_past hpast
    have hlive (id : String) := (Outcome.fileStep hs.1.1 (fun q hq => (hseen q hq).1) ho id).live
      hj.2 hseen (fun q hq => hparked q hq id) (fun g hg => hs.1.2 id g hg)
        (fun g hg => hs.2 id g hg)
    exact ⟨⟨hl.guar, fun id => (hlive id).2⟩, hl.inv', fun id f hf => (hlive id).1 f hf⟩

section

variable {unicode : Unicode} {start : Shared signature} {tr : List (Transition signature)}
  {w : World signature}

/-- A transition appends entries to the log, and its entries for a transaction are one for
a change of its status, and none otherwise. -/
def Accounts (x : Transition signature) : Prop :=
  ∃ es, x.after.shared.db.auditLog = x.before.shared.db.auditLog ++ es ∧ ∀ id,
    recordedStatuses id es = [] ∧
        x.after.shared.db.statusOf id = x.before.shared.db.statusOf id ∨
      ∃ st, recordedStatuses id es = [st] ∧ x.after.shared.db.statusOf id = some st ∧
        x.before.shared.db.statusOf id ≠ some st

/-- The status of every transaction is the one its entries in the audit log give it, and
every change of a status has exactly one entry in the same commit. -/
theorem audit_accounts_for_status (hs : Opening start)
    (hlog : ∀ e ∈ start.db.auditLog, e.transactionId = none)
    (hr : Run (bank unicode) start tr w) (hj : Contract.Starts Job.Unaided tr) :
    (∀ id, replayStatus id w.shared.db.auditLog = w.shared.db.statusOf id) ∧
      ∀ x ∈ tr, Accounts x := by
  have hlive : Live start := by
    intro id f hf
    obtain ⟨ht, -⟩ := Database.find?_of_file hf
    have := Table.mem_of_find? ht
    simp [hs.transactions] at this
  refine (recording_valid unicode).induction (motive := fun tr w =>
    (∀ id, replayStatus id w.shared.db.auditLog = w.shared.db.statusOf id) ∧
      ∀ x ∈ tr, Accounts x) ⟨⟨hs.inv, hs.agreed⟩, hlive⟩ ?_ ?_ hr hj
  · refine ⟨fun id => ?_, by simp⟩
    have hnone : start.db.transactions.find? id = none := by
      rw [Table.find?_eq_none]
      simp [hs.transactions]
    have hrecorded : recordedStatuses id start.db.auditLog = [] := by
      rw [recordedStatuses, List.filter_eq_nil_iff.mpr fun e he => by simp [hlog e he]]
      rfl
    simp [World.idle, replayStatus, foldl_advance, hrecorded, Database.statusOf, hnone]
  · rintro tr w a w' - hsafe - hchange ⟨hreplay, hall⟩
    have haccounts : Accounts ⟨w, a, w'⟩ := by
      rcases hchange.together fun _ hj => hj.1 with ⟨-, he⟩ | ⟨s, v, -, -, ho, hpast, he⟩
      · exact ⟨[], by rw [he, List.append_nil], fun id => .inl ⟨rfl, by rw [he]⟩⟩
      · obtain ⟨⟨hinv, hagreed⟩, -⟩ := hsafe.inv
        obtain ⟨-, hseen, -⟩ := recording_past hpast
        refine ⟨s.txn.pending.filterMap Write.entry?, ?_, fun id => ?_⟩
        · rw [he]
          exact Database.auditLog_replay _
        · rw [he]
          exact Outcome.records ho hinv hagreed hseen
    refine ⟨fun id => ?_, List.forall_mem_cons.mpr ⟨haccounts, hall⟩⟩
    obtain ⟨es, hes, hstatus⟩ := haccounts
    rw [hes, replayStatus_append, hreplay id]
    rcases hstatus id with ⟨hnil, hsame⟩ | ⟨st, hone, hafter, -⟩
    · rw [hnil, hsame]
      rfl
    · rw [hone, hafter]
      rfl

end

/-- The deposit is paid out, and charged back afterwards. -/
def chargebackAfterPayout : List (Action signature) :=
  paidDeposit ++ sendPayout 0 ++ recordAnswer 0 acceptance 5 ++ [commit 0] ++
    disputeDeposit 0 ++ blacklistDeposit 0 ++ [commit 0]

theorem audit_accounts_for_status_disputed : ∃ tr w, Run (bank .ascii) launch tr w ∧
    recordedStatuses "deposit" w.shared.db.auditLog = [.pending, .paid, .completed, .chargeback] ∧
    w.shared.db.statusOf "deposit" = some .chargeback ∧ ∀ x ∈ tr, Accounts x := by
  obtain ⟨tr, w, hr, hactions, hw⟩ := Run.exists_of_trace (bank .ascii) launch
    chargebackAfterPayout (fun r => recordedStatuses "deposit" r.2.shared.db.auditLog)
    (b := [.pending, .paid, .completed, .chargeback]) (by decide)
  obtain ⟨hreplay, hall⟩ := audit_accounts_for_status opening_launch (by simp [launch]) hr
    (Contract.Starts.of_actions hactions (by decide))
  refine ⟨tr, w, hr, hw, ?_, hall⟩
  rw [← hreplay, replayStatus, foldl_advance]
  exact congrArg (fun l => l.getLast?.or none) hw

end MoneyWay
