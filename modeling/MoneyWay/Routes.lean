import MoneyWay.Histories
import MoneyWay.Library.ReadCommitted.Writes

/-!
# Where a response leads

An attempt ends in one of four ways, told by the status, the code and the words of the
response, and each has its status for the claimed transfer; or it raises, when the body cannot
be decoded. The worker leaves nothing in a status that its answers do not lead to.
-/

set_option autoImplicit false

namespace MoneyWay

open Keyed ReadCommitted Python Prog Sql

/-! ## Responses -/

/-- The body, if it is a JSON object. -/
def HttpResponse.fields? (r : HttpResponse) : Option (List (String × Json)) :=
  r.json.toOption.bind Json.dict?

/-- The decoder raises nothing but `ValueError` on the body. -/
def HttpResponse.decodes (r : HttpResponse) : Bool :=
  match r.json with
  | .error .recursion => false
  | .error .value | .ok _ => true

def codeOf (fields : List (String × Json)) : Json := (dictGet fields "code").getD .null

def msgOf (unicode : Unicode) (fields : List (String × Json)) : String :=
  ((dictGet fields "msg").getD (.str "")).toStr unicode

/-- The text has one of the words by which a duplicate is told. -/
def mentionsDuplicate (unicode : Unicode) (text : String) : Bool :=
  ["duplicate", "repeated", "already exist", "idempotent"].any (contains (unicode.lower text))

/-- The same for a balance that does not suffice. -/
def mentionsShortage (unicode : Unicode) (text : String) : Bool :=
  ["insufficient", "not enough", "balance not"].any (contains (unicode.lower text))

/-- The same for a recipient that does not exist. -/
def mentionsNotFound (unicode : Unicode) (text : String) : Bool :=
  ["not found", "not exist", "does not exist", "no such user"].any (contains (unicode.lower text))

/-- How an attempt ends. -/
inductive Ending where
  | completed
  | held
  | failed
  | retried
  | raised
  deriving DecidableEq, Repr

def Route.ending : Route → Ending
  | .complete _ _ => .completed
  | .hold _ => .held
  | .fail _ => .failed
  | .retry _ => .retried
  | .uncaught => .raised

/-- The ending by the words of a text, the first kind that is found. -/
def wordsEnding (unicode : Unicode) (text : String) : Ending :=
  if mentionsDuplicate unicode text then .completed
  else if mentionsShortage unicode text then .held
  else if mentionsNotFound unicode text then .failed
  else .retried

section Responses

variable {unicode : Unicode} {r : HttpResponse} {fields : List (String × Json)} {text : String}

theorem wordsEnding_eq_completed :
    wordsEnding unicode text = .completed ↔ mentionsDuplicate unicode text = true := by
  unfold wordsEnding
  split
  · next h => simp [h]
  · next h =>
    simp only [h, Bool.false_eq_true, iff_false]
    split
    · exact nofun
    · split <;> exact nofun

theorem wordsEnding_eq_failed : wordsEnding unicode text = .failed ↔
    mentionsDuplicate unicode text = false ∧ mentionsShortage unicode text = false ∧
      mentionsNotFound unicode text = true := by
  cases hd : mentionsDuplicate unicode text <;> cases hs : mentionsShortage unicode text <;>
    cases hn : mentionsNotFound unicode text <;> simp [wordsEnding, hd, hs, hn]

theorem wordsEnding_eq_retried : wordsEnding unicode text = .retried ↔
    mentionsDuplicate unicode text = false ∧ mentionsShortage unicode text = false ∧
      mentionsNotFound unicode text = false := by
  cases hd : mentionsDuplicate unicode text <;> cases hs : mentionsShortage unicode text <;>
    cases hn : mentionsNotFound unicode text <;> simp [wordsEnding, hd, hs, hn]

/-- An error of BingX is judged by its message. -/
theorem ending_api (e : BingXAPIError) :
    (route unicode (.error (.api e))).ending = wordsEnding unicode e.msg := by
  have hdup : e.isDuplicate unicode = mentionsDuplicate unicode e.msg := rfl
  have hshort : e.isInsufficientBalance unicode = mentionsShortage unicode e.msg := rfl
  have hnone : e.isRecipientNotFound unicode = mentionsNotFound unicode e.msg := rfl
  simp only [route, wordsEnding, hdup, hshort, hnone]
  split
  · rfl
  · split
    · rfl
    · split <;> rfl

theorem HttpResponse.payload_of_decodes (h : r.decodes = true) : r.payload = .ok r.fields? := by
  unfold decodes at h
  unfold payload fields?
  cases hj : r.json with
  | ok j => rfl
  | error e =>
    cases e with
    | value => rfl
    | recursion => simp [hj] at h

theorem HttpResponse.payload_of_not_decodes (h : r.decodes = false) :
    r.payload = .error .recursion := by
  unfold decodes at h
  unfold payload
  cases hj : r.json with
  | ok j => simp [hj] at h
  | error e =>
    cases e with
    | value => simp [hj] at h
    | recursion => rfl

theorem HttpResponse.decodes_of_fields? (h : r.fields? = some fields) : r.decodes = true := by
  unfold fields? at h
  unfold decodes
  cases hj : r.json with
  | ok j => rfl
  | error e => simp [hj, Except.toOption] at h

/-- A body that cannot be decoded leads nowhere. -/
theorem answerRoute_of_not_decodes (h : r.decodes = false) :
    answerRoute unicode (.response r) = .uncaught := by
  simp only [answerRoute, readAnswer, parse, HttpResponse.payload_of_not_decodes h, route]

variable (unicode) in
theorem decodes_of_ending (h : (answerRoute unicode (.response r)).ending ≠ .raised) :
    r.decodes = true := by
  by_contra hdec
  rw [answerRoute_of_not_decodes (Bool.eq_false_iff.mpr hdec)] at h
  exact h rfl

/-- What the client raises for an HTTP error, or for a body that is no JSON object. -/
theorem parse_unread (hdec : r.decodes = true) (h : 400 ≤ r.statusCode ∨ r.fields? = none) :
    parse unicode r = .error (.api {
      code := .null
      msg := slice 500 r.text
      httpStatus := r.statusCode
      payload := r.fields?.elim (.str (slice 500 r.text)) .obj }) := by
  have hnone : (if r.statusCode ≥ 400 then none else r.fields?) = none := by
    split
    · rfl
    · next hst => exact h.resolve_left hst
  simp only [parse, HttpResponse.payload_of_decodes hdec, hnone]

/-- An HTTP error, or a body that is no JSON object, is judged by its text. -/
theorem ending_unread (hdec : r.decodes = true) (h : 400 ≤ r.statusCode ∨ r.fields? = none) :
    (answerRoute unicode (.response r)).ending = wordsEnding unicode (slice 500 r.text) := by
  simp only [answerRoute, readAnswer, parse_unread hdec h]
  exact ending_api _

/-- A JSON object is judged by its code, and then by its message. -/
theorem ending_read (hst : r.statusCode < 400) (hf : r.fields? = some fields) :
    (answerRoute unicode (.response r)).ending =
      if acceptedCode (codeOf fields) then .completed
      else wordsEnding unicode (msgOf unicode fields) := by
  have hpayload := HttpResponse.payload_of_decodes (HttpResponse.decodes_of_fields? hf)
  have hsome : (if r.statusCode ≥ 400 then none else r.fields?) = some fields := by
    rw [if_neg (by omega)]
    exact hf
  by_cases hcode : acceptedCode (codeOf fields) = true
  · have hok : parse unicode r = .ok fields := by
      simp only [parse, hpayload, hsome]
      exact if_pos hcode
    simp only [answerRoute, readAnswer, hok, hcode, if_true]
    rfl
  · have hbad : parse unicode r = .error (.api
        { code := codeOf fields, msg := msgOf unicode fields, httpStatus := r.statusCode,
          payload := .obj fields }) := by
      simp only [parse, hpayload, hsome]
      exact if_neg hcode
    simp only [answerRoute, readAnswer, hbad, hcode, Bool.false_eq_true, if_false]
    exact ending_api _

/-- A broken connection is tried again. -/
theorem ending_connectionError (message : String) :
    (answerRoute unicode (.connectionError message)).ending = .retried := rfl

end Responses

/-! ## What the worker writes -/

/-- The images a branch may leave. -/
inductive Route.Leaves : Route → Write → Prop
  | completed {bingxTransferId : Option String} {response : Json} (y : BingxTransfer)
      (now : Timestamp) : Leaves (.complete bingxTransferId response)
        (.bingxTransfer (y.complete bingxTransferId response now))
  | paidOut {bingxTransferId : Option String} {response : Json} (t : Transaction)
      (now : Timestamp) : Leaves (.complete bingxTransferId response)
        (.transaction (t.complete bingxTransferId now))
  | held {payload : Json} (y : BingxTransfer) (now : Timestamp) :
      Leaves (.hold payload) (.bingxTransfer (y.settle .onHold payload now))
  | failed {payload : Json} (y : BingxTransfer) (now : Timestamp) :
      Leaves (.fail payload) (.bingxTransfer (y.settle .failed payload now))
  | lost {payload : Json} (t : Transaction) (now : Timestamp) :
      Leaves (.fail payload) (.transaction (t.fail now))
  | retried {payload : Json} (y : BingxTransfer) (now : Timestamp) :
      Leaves (.retry payload) (.bingxTransfer (y.settle .pending payload now))
  | errored {payload : Json} (y : BingxTransfer) (now : Timestamp) :
      Leaves (.retry payload) (.bingxTransfer (y.settle .error payload now))
  | escalated {payload : Json} (t : Transaction) (now : Timestamp) :
      Leaves (.retry payload) (.transaction (t.escalate now))
  | alerted {route : Route} (alert : FraudAlert) : Leaves route (.fraudAlert alert)
  | logged {route : Route} (e : AuditEntry) : Leaves route (.audit e)

section Writes

variable {unicode : Unicode} {φ : Answer → Prop} {ψ : Write → Prop}

theorem writes_updateTransfer {id : String} {texts : List (ℕ × Option String)}
    {response : Option Json} {guard : BingxTransfer → Bool} {set : BingxTransfer → BingxTransfer}
    (hset : ∀ y, ψ (.bingxTransfer (set y))) :
    Prog.Writes (σ := signature) φ ψ (exec (updateTransfer id texts response guard set)) := by
  refine Prog.Writes.exec fun blocked d eff hq w hw => ?_
  cases hf : d.bingxTransfers.find? id with
  | none =>
    rw [updateTransfer_none hf hq] at hw
    cases hw
  | some y =>
    rw [updateTransfer_ok hf hq] at hw
    by_cases hg : guard y = true
    · simp only [hg, if_true, List.mem_singleton] at hw
      rw [hw]
      exact hset y
    · simp [hg] at hw

theorem writes_updatePaid {id : String} {texts : List (ℕ × Option String)}
    {set : Transaction → Transaction} (hset : ∀ t, t.id = id → ψ (.transaction (set t))) :
    (updatePaid id texts set).Writes φ ψ := by
  refine Prog.Writes.exec fun blocked d eff hq w hw => ?_
  cases hf : d.transactions.find? id with
  | none =>
    rw [updateTransaction_none hf hq] at hw
    cases hw
  | some t =>
    rw [updateTransaction_ok hf hq] at hw
    by_cases hg : t.status = .paid
    · simp only [hg, decide_true, if_true, List.mem_singleton] at hw
      rw [hw]
      exact hset t (Table.key_of_find? hf)
    · simp [hg] at hw

theorem writes_writeAuditLog {eventType : EventType} {userId transactionId : Option String}
    {payload : Details} {ipAddress deviceFingerprint userAgent : Option String}
    (hlog : ∀ e, ψ (.audit e)) :
    (writeAuditLog eventType userId transactionId payload ipAddress deviceFingerprint
      userAgent).Writes φ ψ := by
  refine Prog.Writes.now fun now => Prog.Writes.exec fun blocked d eff hq w hw => ?_
  rw [insertAuditLog_ok hq] at hw
  rw [List.mem_singleton.mp hw]
  exact hlog _

theorem writes_insertFraudAlert {alert : FraudAlert} (halert : ψ (.fraudAlert alert)) :
    Prog.Writes (σ := signature) φ ψ (exec (insertFraudAlert alert)) := by
  refine Prog.Writes.exec fun blocked d eff hq w hw => ?_
  rw [insertFraudAlert_ok hq] at hw
  rw [List.mem_singleton.mp hw]
  exact halert

theorem updateTransfer_ne_ok {id : String} {texts : List (ℕ × Option String)}
    {response : Json} {guard : BingxTransfer → Bool} {set : BingxTransfer → BingxTransfer}
    (h : ¬ (fits texts = true ∧ response.storable = true)) (locked : Row → LockMode → Bool)
    (d : Database) (eff : Effect Write Row Unit) :
    updateTransfer id texts (some response) guard set locked d ≠ .ok eff :=
  fun hq => h (fits_of_updateTransfer hq)

/-- An answer that cannot be recorded leaves nothing. -/
theorem writes_follow_of_not_recordable {transfer : ClaimedTransfer} {r : Route}
    (h : ¬ r.Recordable) : (follow transfer r).Writes φ ψ := by
  cases r with
  | complete bingxTransferId response =>
    exact Prog.Writes.now fun now => Prog.Writes.exec_bind_of_error (updateTransfer_ne_ok h)
  | hold payload | fail payload =>
    exact Prog.Writes.now fun now =>
      Prog.Writes.exec_bind_of_error (updateTransfer_ne_ok fun hs => h hs.2)
  | retry payload =>
    simp only [follow, retryOrEscalateTransfer]
    exact Prog.Writes.now fun now =>
      Prog.Writes.exec_bind_of_error (updateTransfer_ne_ok fun hs => h hs.2)
  | uncaught => exact trivial

theorem writes_follow {transfer : ClaimedTransfer} {r : Route}
    (h : r.Recordable → ∀ w, r.Leaves w → ψ w) : (follow transfer r).Writes φ ψ := by
  by_cases hrec : r.Recordable
  swap
  · exact writes_follow_of_not_recordable hrec
  have h := h hrec
  have hlog (e : AuditEntry) : ψ (.audit e) := h _ (.logged e)
  cases r with
  | complete bingxTransferId response =>
    exact Prog.Writes.now fun now =>
      Prog.Writes.bind (writes_updateTransfer fun y => h _ (.completed y now)) fun _ =>
        Prog.Writes.bind (writes_updatePaid fun t _ => h _ (.paidOut t now)) fun _ =>
          writes_writeAuditLog hlog
  | hold payload =>
    exact Prog.Writes.now fun now =>
      Prog.Writes.bind (writes_updateTransfer fun y => h _ (.held y now)) fun _ =>
        Prog.Writes.bind (writes_insertFraudAlert (h _ (.alerted _))) fun _ =>
          writes_writeAuditLog hlog
  | fail payload =>
    exact Prog.Writes.now fun now =>
      Prog.Writes.bind (writes_updateTransfer fun y => h _ (.failed y now)) fun _ =>
        Prog.Writes.bind (writes_updatePaid fun t _ => h _ (.lost t now)) fun _ =>
          writes_writeAuditLog hlog
  | retry payload =>
    by_cases hn : transfer.attemptNumber < maxTransferAttempts
    · simp only [follow, retryOrEscalateTransfer, hn, if_true]
      exact Prog.Writes.now fun now =>
        Prog.Writes.bind (writes_updateTransfer fun y => h _ (.retried y now)) fun _ => trivial
    · simp only [follow, retryOrEscalateTransfer, hn, if_false, if_true]
      exact Prog.Writes.now fun now =>
        Prog.Writes.bind (writes_updateTransfer fun y => h _ (.errored y now)) fun _ =>
          Prog.Writes.now fun now' =>
            Prog.Writes.bind (writes_updatePaid fun t _ => h _ (.escalated t now')) fun _ =>
              writes_writeAuditLog hlog
  | uncaught => exact hrec.elim

/-- The claim, and then what the answer leads to. -/
theorem writes_processTransfer {settings : WorkerSettings}
    (hclaim : ∀ now y, ψ (.bingxTransfer (claim now y)))
    (hroute : ∀ a, φ a → (answerRoute unicode a).Recordable →
      ∀ w, (answerRoute unicode a).Leaves w → ψ w) :
    Prog.Writes (σ := signature) φ ψ (program unicode (.processTransfer settings)) := by
  refine Prog.Writes.bind (Prog.Writes.bind (Prog.Writes.now fun now => Prog.Writes.exec
    fun blocked d eff hq => ?_) fun claimed => ?_) fun _ => trivial
  · intro w hw
    rcases updateNextTransfer_ok hq with rfl | ⟨y, -, -, rfl⟩
    · cases hw
    · rw [List.mem_singleton.mp hw]
      exact hclaim _ _
  · cases claimed with
    | none => exact trivial
    | some transfer =>
      simp only [createInternalTransfer]
      split
      · exact trivial
      · intro a ha
        change Prog.Writes _ _ (recordOutcome unicode transfer (readAnswer unicode a) >>=
          fun _ => pure true)
        refine Prog.Writes.bind ?_ fun _ => trivial
        rw [recordOutcome_eq]
        exact writes_follow (hroute a ha)

end Writes

/-! ## Statuses -/

/-- The status of a claimed transfer after an attempt that ends so. -/
def Ending.status (attemptNumber : ℕ) : Ending → TransferStatus
  | .completed => .completed
  | .held => .onHold
  | .failed => .failed
  | .retried => if attemptNumber + 1 < maxTransferAttempts then .pending else .error
  | .raised => .processing

/-- The transition brings a transfer or a transaction into a status. -/
def Enters (transfer : TransferStatus) (transaction : TransactionStatus)
    (x : Transition signature) : Prop :=
  (∃ y ∈ x.after.shared.db.bingxTransfers.rows, y.status = transfer ∧
      ∀ z ∈ x.before.shared.db.bingxTransfers.find? y.id, z.status ≠ transfer) ∨
    ∃ t ∈ x.after.shared.db.transactions.rows, t.status = transaction ∧
      ∀ u ∈ x.before.shared.db.transactions.find? t.id, u.status ≠ transaction

instance (transfer : TransferStatus) (transaction : TransactionStatus)
    (x : Transition signature) : Decidable (Enters transfer transaction x) :=
  inferInstanceAs (Decidable (_ ∨ _))

/-- The image has one of these statuses. -/
def Write.HasStatus (transfer : TransferStatus) (transaction : TransactionStatus) : Write → Prop
  | .bingxTransfer y => y.status = transfer
  | .transaction t => t.status = transaction
  | _ => False

section Statuses

variable {unicode : Unicode} {start : Shared signature} {tr : List (Transition signature)}
  {w : World signature} {x : Transition signature} {s : Session signature}
  {settings : WorkerSettings} {transfer : TransferStatus} {transaction : TransactionStatus}

theorem not_enters {ws : List Write} (hdb : x.after.shared.db = replay ws x.before.shared.db)
    (hws : ∀ w ∈ ws, ¬ w.HasStatus transfer transaction) : ¬ Enters transfer transaction x := by
  rintro (⟨y, hy, hst, hbefore⟩ | ⟨t, ht, hst, hbefore⟩)
  · rw [hdb] at hy
    rcases Database.transfer_replay (Table.find?_of_mem hy) with ⟨hw, -⟩ | ⟨hf, -⟩
    · exact hws _ hw hst
    · exact hbefore y hf hst
  · rw [hdb] at ht
    rcases Database.transaction_replay (Table.find?_of_mem ht) with ⟨hw, -⟩ | ⟨hf, -⟩
    · exact hws _ hw hst
    · exact hbefore t hf hst

/-- A worker that brings something into a status has had an answer that leads there. -/
theorem exists_answer {e : Ending} (hprocessing : transfer ≠ .processing)
    (hends : ∀ r w, Route.Leaves r w → w.HasStatus transfer transaction → r.ending = e)
    (hr : Run (bank unicode) start tr w) (hx : x ∈ tr)
    (hfind : x.before.sessions.find? s.id = some s) (ha : x.action = .run s.id)
    (hjob : s.job = .processTransfer settings) (henters : Enters transfer transaction x) :
    ∃ q a, (q, a) ∈ s.txn.calls ∧ (answerRoute unicode a).ending = e ∧
      (answerRoute unicode a).Recordable := by
  by_contra hno
  have hcalls (c : TransferRequest × Answer) (hc : c ∈ s.txn.calls) :
      ¬ ((answerRoute unicode c.2).ending = e ∧ (answerRoute unicode c.2).Recordable) :=
    fun h => hno ⟨c.1, c.2, hc, h⟩
  have hprog (j : Job) (hj : ∃ settings, j = .processTransfer settings) :
      Prog.Writes
        (fun a => ¬ ((answerRoute unicode a).ending = e ∧ (answerRoute unicode a).Recordable))
        (fun w : Write => ¬ w.HasStatus transfer transaction) ((bank unicode).program j) := by
    obtain ⟨settings, rfl⟩ := hj
    exact writes_processTransfer (fun _ _ h => hprocessing h.symm)
      fun a ha hrec w hw h => ha ⟨hends _ w hw h, hrec⟩
  obtain ⟨ws, hdb, hws⟩ := hr.writes hprog hx hfind ha ⟨settings, hjob⟩ hcalls
  exact not_enters hdb hws henters

/-- The same for a response, where a broken connection does not lead. -/
theorem exists_response {e : Ending} (hprocessing : transfer ≠ .processing) (he : e ≠ .retried)
    (hends : ∀ r w, Route.Leaves r w → w.HasStatus transfer transaction → r.ending = e)
    (hr : Run (bank unicode) start tr w) (hx : x ∈ tr)
    (hfind : x.before.sessions.find? s.id = some s) (ha : x.action = .run s.id)
    (hjob : s.job = .processTransfer settings) (henters : Enters transfer transaction x) :
    ∃ q r, (q, .response r) ∈ s.txn.calls ∧ (answerRoute unicode (.response r)).ending = e ∧
      (answerRoute unicode (.response r)).Recordable := by
  obtain ⟨q, a, hc, hend, hrec⟩ := exists_answer hprocessing hends hr hx hfind ha hjob henters
  cases a with
  | connectionError message =>
    rw [ending_connectionError] at hend
    exact absurd hend.symm he
  | response r => exact ⟨q, r, hc, hend, hrec⟩

/-- What is recorded first is the claimed transfer, and nothing else of it. -/
theorem Recorded.settles {x : Txn signature} {s : Shared signature} {y : BingxTransfer}
    {now : Timestamp} {r : Route} {ws : List Write} (h : Recorded x s y now r ws) :
    ∃ y' vs, ws = .bingxTransfer y' :: vs ∧ y'.id = y.id ∧
      y'.attemptNumber = y.attemptNumber + 1 ∧ y'.status = r.ending.status y.attemptNumber ∧
      ∀ v ∈ vs, v.target ≠ some (.bingxTransfer y.id) := by
  have hpaid {set : Transaction → Transaction} {vs : List Write} (h : PaidUpdate x s y set vs) :
      ∀ v ∈ vs, v.target ≠ some (.bingxTransfer y.id) := by
    obtain ⟨q, -, -, t, -, ⟨-, -, rfl⟩ | ⟨-, rfl⟩⟩ := h <;> simp
  have hlogged {vs : List Write} {eventType : EventType} {payload : Details} {now : Timestamp}
      (h : ∀ v ∈ vs, v.target ≠ some (.bingxTransfer y.id)) :
      ∀ v ∈ vs ++ [transferAudit eventType y payload now],
        v.target ≠ some (.bingxTransfer y.id) := by
    intro v hv
    rcases List.mem_append.mp hv with hv | hv
    · exact h v hv
    · rw [List.mem_singleton.mp hv]
      intro ht
      cases ht
  cases h with
  | completed _ _ h | failed _ h => exact ⟨_, _, rfl, rfl, rfl, rfl, hlogged (hpaid h)⟩
  | held => exact ⟨_, _, rfl, rfl, rfl, rfl, by simp [transferAudit]⟩
  | retried _ hn => exact ⟨_, _, rfl, rfl, rfl, (if_pos hn).symm, by simp⟩
  | escalated _ hn h =>
    exact ⟨_, _, rfl, rfl, rfl, (if_neg (by omega)).symm, hlogged (hpaid h)⟩

/-- What has been recorded could be. -/
theorem Recorded.recordable {x : Txn signature} {s : Shared signature} {y : BingxTransfer}
    {now : Timestamp} {r : Route} {ws : List Write} (h : Recorded x s y now r ws) :
    r.Recordable := by
  cases h with
  | completed hfits hresponse => exact ⟨hfits, hresponse⟩
  | held hs | failed hs | retried hs | escalated hs => exact hs

/-- The commit of an attempt records its answer for the transfer that it was for. -/
theorem attempt_recorded (hs : Opening start) (hr : Run (bank unicode) start tr w) (hx : x ∈ tr)
    {v : Result} (hc : x.Commits s v) (hjob : s.job = .processTransfer settings)
    (hauto : settings.autocommit = false) {q : TransferRequest} {a : Answer}
    (hcalls : s.txn.calls = [(q, a)]) :
    ∃ y now ws, x.before.shared.db.bingxTransfers.find? y.id = some y ∧ y.request = q ∧
      (y.status = .pending ∨ y.status = .processing) ∧
      Recorded s.txn x.before.shared y now (answerRoute unicode a) ws ∧
      x.after.shared.db = replay (.bingxTransfer (claim now y) :: ws) x.before.shared.db := by
  obtain ⟨ho, -, hafter⟩ := (payments_valid unicode).commits hs.inv hr (starts_any tr) hx hc
    (by rw [hjob]; exact hauto)
  rw [hjob] at ho
  cases ho with
  | idle hp hnil =>
    rw [hcalls] at hnil
    cases hnil
  | @processed y now b ws hclaimed hb hrec hp =>
    rw [hcalls] at hb
    cases hb
    obtain ⟨early, -, -, hclaim⟩ := hclaimed.claimed
    exact ⟨y, now, ws, hclaimed.row, rfl, status_of_claimable hclaim, hrec, by rw [hafter, hp]⟩

/-- What the commit of an attempt leaves of the transfer that it was for. -/
theorem attempt_settles (hs : Opening start) (hr : Run (bank unicode) start tr w) (hx : x ∈ tr)
    {v : Result} (hc : x.Commits s v) (hjob : s.job = .processTransfer settings)
    (hauto : settings.autocommit = false) {q : TransferRequest} {a : Answer}
    (hcalls : s.txn.calls = [(q, a)]) :
    ∃ y y', x.before.shared.db.bingxTransfers.find? y.id = some y ∧ y.request = q ∧
      (y.status = .pending ∨ y.status = .processing) ∧
      x.after.shared.db.bingxTransfers.find? y.id = some y' ∧
      y'.attemptNumber = y.attemptNumber + 1 ∧
      y'.status = (answerRoute unicode a).ending.status y.attemptNumber := by
  obtain ⟨y, now, ws, hy, hq, hst, hrec, hafter⟩ := attempt_recorded hs hr hx hc hjob hauto hcalls
  obtain ⟨y', vs, rfl, hid, hattempt, hst', hvs⟩ := hrec.settles
  have hrow : x.after.shared.db.row (.bingxTransfer y.id) = some (.bingxTransfer y') := by
    rw [hafter]
    change Database.row (replay ([Write.bingxTransfer (claim now y)] ++ _) _) _ = _
    exact Database.row_written_last (congrArg (fun id => some (Row.bingxTransfer id)) hid) rfl hvs
  exact ⟨y, y', hy, hq, hst, Option.map_injective (fun _ _ => Write.bingxTransfer.inj) hrow,
    hattempt, hst'⟩

/-- An attempt brings its transfer into the status that its answer leads to. -/
theorem attempt_enters (hs : Opening start) (hr : Run (bank unicode) start tr w) (hx : x ∈ tr)
    {v : Result} (hc : x.Commits s v) (hjob : s.job = .processTransfer settings)
    (hauto : settings.autocommit = false) {q : TransferRequest} {a : Answer}
    (hcalls : s.txn.calls = [(q, a)])
    (hend : ∀ n, (answerRoute unicode a).ending.status n = transfer)
    (hopen : transfer ≠ .pending ∧ transfer ≠ .processing) : Enters transfer transaction x := by
  obtain ⟨y, y', hy, -, hst, hy', -, hst'⟩ := attempt_settles hs hr hx hc hjob hauto hcalls
  rw [hend] at hst'
  have hid : y'.id = y.id := Table.key_of_find? hy'
  refine .inl ⟨y', Table.mem_of_find? hy', hst', fun z hz he => ?_⟩
  have hzy : z = y := by
    rw [hid] at hz
    exact Option.some.inj (hz.symm.trans hy)
  rw [hzy] at he
  rcases hst with hst | hst
  · exact hopen.1 (he.symm.trans hst)
  · exact hopen.2 (he.symm.trans hst)

end Statuses

/-! ## One attempt -/

/-- The worker that commits with the transition, and the one response it has had. -/
def response? (x : Transition signature) : Option (WorkerSettings × HttpResponse) :=
  match x.commit? with
  | some ⟨_, .processTransfer settings, _, txn⟩ =>
    match txn.calls with
    | [(_, .response r)] => some (settings, r)
    | _ => none
  | _ => none

theorem of_response? {x : Transition signature} {settings : WorkerSettings} {r : HttpResponse}
    (h : response? x = some (settings, r)) : ∃ s v q, x.Commits s v ∧
      s.job = .processTransfer settings ∧ s.txn.calls = [(q, .response r)] := by
  unfold response? at h
  split at h
  · next id settings' prog txn hc =>
    obtain ⟨v, hcommits⟩ := Transition.commits_of_commit? hc
    split at h
    · next q r' hcalls =>
      cases h
      exact ⟨_, v, q, hcommits, rfl, hcalls⟩
    · cases h
  · cases h

/-- The payout of the paid deposit is answered and recorded in `n` operations. -/
def answeredPayout (a : Answer) (n : ℕ) : List (Action signature) :=
  paidDeposit ++ sendPayout 0 ++ recordAnswer 0 a n ++ [commit 0]

/-- What the last transition and its response show. -/
def lastAttempt {β : Type} (f : Transition signature → HttpResponse → β)
    (r : List (Transition signature) × World signature) : Option (Bool × β) :=
  r.1.head?.bind fun x => (response? x).map fun c => (c.1.autocommit, f x c.2)

theorem exists_attempt (as : List (Action signature)) {β : Type}
    (f : Transition signature → HttpResponse → β) {b : β}
    (h : ((World.idle launch).trace (bank .ascii) [] as).map (lastAttempt f) =
      some (some (false, b))) :
    ∃ tr w x s settings v q r, Run (bank .ascii) launch tr w ∧ x ∈ tr ∧ x.Commits s v ∧
      s.job = .processTransfer settings ∧ settings.autocommit = false ∧
      s.txn.calls = [(q, .response r)] ∧ f x r = b := by
  obtain ⟨tr, w, hr, -, hw⟩ := Run.exists_of_trace (bank .ascii) launch as (lastAttempt f) h
  obtain ⟨x, hx, hc⟩ := Option.bind_eq_some_iff.mp hw
  obtain ⟨⟨settings, r⟩, hc, hobs⟩ := Option.map_eq_some_iff.mp hc
  obtain ⟨hauto, hb⟩ := Prod.mk.inj hobs
  obtain ⟨s, v, q, hcommits, hjob, hcalls⟩ := of_response? hc
  exact ⟨tr, w, x, s, settings, v, q, r, hr, List.mem_of_mem_head? hx, hcommits, hjob, hauto,
    hcalls, hb⟩

end MoneyWay
