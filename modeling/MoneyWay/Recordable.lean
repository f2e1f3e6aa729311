import MoneyWay.QuietChargeback
import MoneyWay.Routes

/-!
# Answers that can be recorded

The worker writes down what BingX has answered. Where that does not fit into its columns, or
the body could not even be decoded, the step raises and is rolled back; otherwise it commits,
whatever the other sessions do meanwhile.

## Main definitions

- `Stocked` — what a worker finds in a database and relies on

## Main results

- `commits_iff_recordable` — an attempt commits exactly if its answer can be recorded
- `unchanged_of_not_recordable` — otherwise everything is as it was
-/

set_option autoImplicit false

namespace MoneyWay

open Keyed ReadCommitted Python Prog Sql

section Recordable

variable {φ : Answer → Prop} {id : String} {transfer : ClaimedTransfer}

/-- The transaction a row refers to exists. -/
def Known (id : String) (d : Database) : Prop := (d.transactions.find? id).isSome = true

theorem lasting_known (id : String) : Lasting (σ := signature) (Known id) := by
  intro ws d h
  obtain ⟨t, ht⟩ := Option.isSome_iff_exists.mp h
  obtain ⟨t', ht'⟩ := Database.exists_transaction_replay ws ht
  exact Option.isSome_iff_exists.mpr ⟨t', ht'⟩

theorem Known.referenced {d : Database} (h : Known id d) : referenced d none (some id) = true := by
  unfold Known at h
  simp [Sql.referenced, h]

theorem quiet_updateTransfer {I : Database → Prop} {texts : List (ℕ × Option String)}
    {response : Json} {guard : BingxTransfer → Bool} {set : BingxTransfer → BingxTransfer}
    (htexts : fits texts = true) (hresponse : response.storable = true) :
    (exec (updateTransfer id texts (some response) guard set) : Handler Unit).Quiet φ I := by
  refine quiet_exec fun blocked d _ e he => ?_
  have hstorable : (fits texts && (some response).all Json.storable) = true := by
    simp [htexts, hresponse]
  rw [updateTransfer, if_pos hstorable] at he
  split at he
  · cases he
  · split at he <;> cases he

theorem quiet_updatePaid {I : Database → Prop} {texts : List (ℕ × Option String)}
    {set : Transaction → Transaction} (htexts : fits texts = true) :
    (updatePaid id texts set).Quiet φ I := by
  refine quiet_exec fun blocked d _ e he => ?_
  rw [updateTransaction, if_pos htexts] at he
  split at he
  · cases he
  · split at he <;> cases he

/-- What an answer leads to is recorded. -/
theorem quiet_follow {route : Route} (hroute : route.Recordable)
    (huid : storableText transfer.recipientUid = true) :
    (follow transfer route).Quiet φ (Known transfer.transactionId) := by
  have haudit {eventType : EventType} {payload : Details} (hp : storableDetails payload = true) :
      (writeAuditLog eventType none (some transfer.transactionId) payload none none none).Quiet φ
        (Known transfer.transactionId) :=
    quiet_writeAuditLog hp fun _ => Known.referenced
  cases route with
  | complete bingxTransferId response =>
    obtain ⟨hfits, hresponse⟩ := hroute
    have hid : bingxTransferId.all storableText = true :=
      storableText_of_fits hfits List.mem_cons_self
    refine quiet_now fun now => .bind (quiet_updateTransfer hfits hresponse) fun _ => ?_
    exact .bind (quiet_updatePaid hfits) fun _ => haudit (by simp [storableDetails, hid])
  | hold payload =>
    refine quiet_now fun now => .bind (quiet_updateTransfer rfl hroute) fun _ => ?_
    refine .bind (quiet_insertFraudAlert ?_ fun _ => Known.referenced) fun _ => haudit (by decide)
    simp [lowBalanceAlert, storableDetails, huid]
  | fail payload =>
    refine quiet_now fun now => .bind (quiet_updateTransfer rfl hroute) fun _ => ?_
    have hfits : fits [] = true := rfl
    exact .bind (quiet_updatePaid hfits) fun _ => haudit (by simp [storableDetails, huid])
  | retry payload =>
    by_cases hless : transfer.attemptNumber < maxTransferAttempts
    · simp only [follow, retryOrEscalateTransfer, hless, if_true]
      exact quiet_now fun now => .bind (quiet_updateTransfer rfl hroute) fun _ => trivial
    · simp only [follow, retryOrEscalateTransfer, hless, if_false, if_true]
      refine quiet_now fun now => .bind (quiet_updateTransfer rfl hroute) fun _ => ?_
      have hfits : fits [] = true := rfl
      refine quiet_now fun now' => .bind (quiet_updatePaid hfits) fun _ => haudit ?_
      simp [storableDetails]
  | uncaught => exact hroute.elim

end Recordable

/-- The rows that go with the transfers are there, and the texts they quote have been stored. -/
structure Stocked (d : Database) : Prop where
  sound : Sound d
  bingxUid : ∀ t ∈ d.transactions.rows, storableText t.bingxUid = true

theorem Stocked.transfer {d : Database} (hd : Stocked d) {y : BingxTransfer}
    (hy : y ∈ d.bingxTransfers.rows) :
    Known y.transactionId d ∧ storableText y.recipientUid = true := by
  obtain ⟨t, ht, -, hpays⟩ := hd.sound.owner y hy
  refine ⟨by rw [Known, ht]; rfl, ?_⟩
  rw [hpays.recipientUid]
  exact hd.bingxUid t (Table.mem_of_find? ht)

/-- The rest of a step, once its transfer is claimed. -/
theorem quiet_attempt {unicode : Unicode} {y : BingxTransfer}
    (huid : storableText y.recipientUid = true) :
    (createInternalTransfer unicode (returning y).recipientUid (returning y).amountUsdt
      (returning y).idempotencyKey >>= fun result =>
        recordOutcome unicode (returning y) result >>= fun _ => pure true : Handler Bool).Quiet
      (fun a => (answerRoute unicode a).Recordable) (Known y.transactionId) := by
  have hpos : ¬ (returning y).amountUsdt ≤ 0 := not_le_of_gt y.amount_positive
  rw [createInternalTransfer, if_neg hpos]
  intro a ha
  change Quiet _ _
    (recordOutcome unicode (returning y) (readAnswer unicode a) >>= fun _ => pure true)
  rw [recordOutcome_eq]
  have hfollow : (follow (returning y) (answerRoute unicode a)).Quiet
      (fun a => (answerRoute unicode a).Recordable) (Known (returning y).transactionId) :=
    quiet_follow ha huid
  exact .bind hfollow fun _ => trivial

/-- A worker begins well in such a database. -/
theorem begins_processTransfer {unicode : Unicode} {settings : WorkerSettings} {d : Database}
    (hd : Stocked d) :
    ((bank unicode).program (.processTransfer settings)).Begins
      (fun a => (answerRoute unicode a).Recordable) d := by
  intro now blocked
  cases hq : updateNextTransfer now (if settings.staleSeconds > 0 then
      some (now - seconds settings.staleSeconds) else none)
      (now - seconds settings.retryBackoffSeconds) blocked d with
  | error e =>
    unfold updateNextTransfer at hq
    simp only at hq
    split at hq <;> cases hq
  | ok eff =>
    refine ⟨eff, rfl, ?_⟩
    rcases updateNextTransfer_ok hq with rfl | ⟨y, hy, -, rfl⟩
    · exact ⟨fun _ => True, fun _ _ _ => trivial, trivial, trivial⟩
    · obtain ⟨hknown, huid⟩ := hd.transfer hy
      refine ⟨Known y.transactionId, lasting_known _, hknown, ?_⟩
      exact .bind (quiet_attempt (y := claim now y) huid) fun _ => trivial

section

variable {unicode : Unicode} {start : Shared signature} {tr : List (Transition signature)}
  {w : World signature} {x : Transition signature} {s : Session signature}
  {settings : WorkerSettings} {q : TransferRequest} {a : Answer}

theorem run_stocked (hs : Opening start) (hr : Run (bank unicode) start tr w) :
    Stocked w.shared.db := ⟨(run_inv hs hr).sound, run_storable_uid hs hr⟩

/-- A worker whose answers can be recorded raises nothing. -/
theorem raises_nothing (hs : Opening start) (hr : Run (bank unicode) start tr w) (hx : x ∈ tr)
    (hfind : x.before.sessions.find? s.id = some s) (hjob : s.job = .processTransfer settings)
    (hcalls : ∀ c ∈ s.txn.calls, (answerRoute unicode c.2).Recordable) (e : Error) :
    s.prog ≠ .throw e := by
  obtain ⟨early, -, -, hr, -⟩ := hr.cut_of_mem hx
  have hbegin (d : Database) (hd : Stocked d) (j : Job)
      (hj : ∃ settings, j = .processTransfer settings) :
      ((bank unicode).program j).Begins (fun a => (answerRoute unicode a).Recordable) d := by
    obtain ⟨settings, rfl⟩ := hj
    exact begins_processTransfer hd
  have hsure := Run.sure (fun _ _ hr _ => run_stocked hs hr) hbegin hr (starts_any early) s
    (Table.mem_of_find? hfind) ⟨settings, hjob⟩
  exact hsure.prog_ne_throw (run_stocked hs hr) hcalls e

/-- However a step ends that is one transaction and has had its answer: it commits exactly if the
answer can be recorded. -/
theorem commits_iff_recordable (hs : Opening start) (hr : Run (bank unicode) start tr w)
    (hx : x ∈ tr) (he : x.Ends s) (hjob : s.job = .processTransfer settings)
    (hauto : settings.autocommit = false) (hcalls : s.txn.calls = [(q, a)]) :
    (∃ v, x.Commits s v) ↔ (answerRoute unicode a).Recordable := by
  constructor
  · rintro ⟨v, hc⟩
    obtain ⟨y, now, ws, -, -, -, hrec, -⟩ := attempt_recorded hs hr hx hc hjob hauto hcalls
    exact hrec.recordable
  · intro hrec
    refine he.commits (raises_nothing hs hr hx he.session hjob fun c hc => ?_)
    rw [hcalls] at hc
    rw [List.mem_singleton.mp hc]
    exact hrec

/-- An answer that cannot be recorded changes nothing: its attempt is rolled back. -/
theorem unchanged_of_not_recordable (hs : Opening start) (hr : Run (bank unicode) start tr w)
    (hx : x ∈ tr) (he : x.Ends s) (hjob : s.job = .processTransfer settings)
    (hauto : settings.autocommit = false) (hcalls : s.txn.calls = [(q, a)])
    (hrec : ¬ (answerRoute unicode a).Recordable) : x.after.shared = x.before.shared := by
  have hno := (commits_iff_recordable hs hr hx he hjob hauto hcalls).not.mpr hrec
  rcases he.ended with ⟨v, hp⟩ | ⟨e, hp⟩
  · exact absurd ⟨v, he.session, he.action, hp⟩ hno
  · exact hr.shared_eq_of_throw hx he hp

end

end MoneyWay
