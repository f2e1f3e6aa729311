import MoneyWay.DrainEnds
import MoneyWay.Recordable
import MoneyWay.RetrySpacing
import MoneyWay.Library.ReadCommitted.Halts

/-!
# A drain settles what is due

When the service comes up again, its sessions have been rolled back and the queue is what has
been committed. Whatever BingX answers, if what it answers can be stored, there is a drain that
raises nothing, and such a drain leaves every transfer that was due as its answer says.

## Main definitions

- `Smooth` — a drain with these answers that raises nothing
- `Handled` — a transfer has been sent, and stands with its deposit as its answer says
- `Served` — what is sent has an effect outside before it is answered

## Main results

- `Drains.tracks` — the rule for one transfer in a drain
- `drain_settles` — there are such drains, and all of them handle what was due
-/

set_option autoImplicit false

namespace MoneyWay

open Keyed ReadCommitted Python Prog Sql

section

variable {unicode : Unicode} {staleSeconds retryBackoffSeconds : ℤ} {s s' : Shared signature}
  {x : Txn signature} {answers : TransferRequest → Answer}

/-- A call that is answered so raises nothing. -/
theorem after_processInTransaction (hstocked : Stocked s.db)
    (hroute : ∀ q, (answerRoute unicode (answers q)).Recordable) :
    (program unicode (processInTransaction staleSeconds retryBackoffSeconds)).After (bank unicode)
      (fun r x _ => x.AnsweredBy answers → ∀ e, r ≠ .error e) {} s := by
  have hbegins : (program unicode (processInTransaction staleSeconds retryBackoffSeconds)).Begins
      (fun a => (answerRoute unicode a).Recordable) s.db := begins_processTransfer hstocked
  refine After.mono (hbegins.after rfl) fun r x' s' h hanswered => h fun c hc => ?_
  rw [hanswered c hc]
  exact hroute c.1

/-! ## One call -/

/-- The contract `agreeing` with stored texts in the invariant. -/
def storing (unicode : Unicode) : Contract signature :=
  { agreeing unicode with
    inv := fun s => (agreeing unicode).inv s ∧ ∀ id f, s.db.file id = some f → f.Admitted }

theorem storing_valid (unicode : Unicode) :
    (storing unicode).Valid (bank unicode) Job.Together := by
  refine (agreeing_valid unicode).strengthen (fun _ h => h) (fun _ _ h => h)
    fun j v x s _ hi hadmitted hpast ho id f hf => ?_
  have hstep := Outcome.fileStep hi.1 (fun q hq => (hpast q hq).1.1.1) ho id
  exact hstep.admitted (hadmitted id) f hf

theorem stocked_of_inv (h : (storing unicode).inv s) : Stocked s.db :=
  ⟨h.1.1.sound, fun _ ht => (h.2 _ _ (Database.file_of_find? (Table.find?_of_mem ht))).bingxUid⟩

/-- A call takes a transfer that is due. -/
theorem claims_due {v : Option (Except Error Result)}
    (h : Ends (bank unicode) (processInTransaction staleSeconds retryBackoffSeconds) s v x s')
    {id : String} (hid : (⟨s, v, x, s'⟩ : ProcessStep).claimed? = some id) :
    ∃ now y, y ∈ s.db.bingxTransfers.rows ∧ y.id = id ∧
      dueAt staleSeconds retryBackoffSeconds now s.db y = true := by
  have hnone {s₁ : Shared signature} (hx : x.pending = []) :
      (⟨s, v, x, s₁⟩ : ProcessStep).claimed? = none := by
    rw [ProcessStep.claimed?, hx]
    rfl
  obtain ⟨ha⟩ := h
  obtain ⟨y₁, -, ⟨-, rfl, -⟩ | ha⟩ := Alone.clock_cases ha
  · rw [hnone rfl] at hid
    cases hid
  rcases Alone.stmt_cases ha with ⟨rfl, -⟩ | ⟨y₂, eff, -, hq, ha⟩
  · rw [hnone rfl] at hid
    cases hid
  rcases updateNextTransfer_first hq with ⟨rfl, -⟩ | ⟨y, hy, hdue, -, rfl⟩
  · obtain ⟨rfl, -⟩ := Alone.done_cases ha
    rw [hnone rfl] at hid
    cases hid
  · obtain ⟨ws, hws⟩ := ha.pending_prefix
    rw [claimed?_of_pending (p := ⟨s, v, x, _⟩) hws.symm] at hid
    exact ⟨_, y, hy, Option.some.inj hid, hdue⟩

/-- How a transfer that has been sent so often, and its deposit, stand after an answer. -/
inductive Stands (attemptNumber : ℕ) : Ending → TransferStatus → TransactionStatus → Prop
  | completed : Stands attemptNumber .completed .completed .completed
  | held : Stands attemptNumber .held .onHold .paid
  | failed : Stands attemptNumber .failed .failed .failed
  | retried : attemptNumber < maxTransferAttempts → Stands attemptNumber .retried .pending .paid
  | escalated : maxTransferAttempts ≤ attemptNumber → Stands attemptNumber .retried .error .error

theorem Stands.of_completed {n : ℕ} {transfer : TransferStatus} {transaction : TransactionStatus}
    (h : Stands n .completed transfer transaction) :
    transfer = .completed ∧ transaction = .completed := by
  cases h
  exact ⟨rfl, rfl⟩

/-- What is recorded for the transfer of a paid deposit. -/
theorem stands_of_recorded {y y' : BingxTransfer} {now : Timestamp} {route : Route}
    {set : Option (Transaction → Transaction)} {t t' : Transaction} {k : Option KycRecord}
    (hpaid : t.status = .paid) (hset : Settled y now route y' set) (hupdated : Updated x y t set t')
    (hf : File.Agrees heldStatuses True ⟨t', some y', k⟩) :
    Stands y'.attemptNumber route.ending y'.status t'.status := by
  -- a deposit that is still paid has an open transfer
  have hopen (h : t'.status = .paid) : y'.status = .pending ∨ y'.status = .onHold := by
    cases hf with
    | paid _ hy => exact hy
    | completed ht | error ht | failed ht | charged ht | chargedHeld ht =>
      rw [h] at ht
      cases ht
  cases hset with
  | completed =>
    cases hupdated with
    | paid => exact .completed
    | skipped => rcases hopen hpaid with h | h <;> cases h
  | held =>
    cases hupdated
    rw [hpaid]
    exact .held
  | failed =>
    cases hupdated with
    | paid => exact .failed
    | skipped => rcases hopen hpaid with h | h <;> cases h
  | retried hless =>
    cases hupdated
    rw [hpaid]
    exact .retried hless
  | escalated hlast =>
    cases hupdated with
    | paid => exact .escalated hlast
    | skipped => rcases hopen hpaid with h | h <;> cases h

variable (unicode answers) in
/-- The transfer has been sent once more, and it stands as its answer says. -/
def Handled (y : BingxTransfer) (d : Database) : Prop :=
  ∃ t y', d.transactions.find? y.transactionId = some t ∧
    d.bingxTransfers.find? y.id = some y' ∧ y.SamePayout y' ∧
    y.attemptNumber < y'.attemptNumber ∧
    Stands y'.attemptNumber (answerRoute unicode (answers y.request)).ending y'.status t.status

/-- A call that is answered so handles the transfer that it takes. -/
theorem handled_of_ends (hi : (storing unicode).inv s)
    (h : Ends (bank unicode) (processInTransaction staleSeconds retryBackoffSeconds) s
      (some (.ok (.processed true))) x s') (hx : x.AnsweredBy answers) {y : BingxTransfer}
    (hy : y ∈ s.db.bingxTransfers.rows)
    (hclaimed : (⟨s, some (.ok (.processed true)), x, s'⟩ : ProcessStep).claimed? = some y.id) :
    Handled unicode answers y s'.db := by
  obtain ⟨now, z, hz, hzid, hdue⟩ := claims_due h hclaimed
  obtain rfl : z = y := eq_of_id hz hy hzid
  have htogether : Job.Together (processInTransaction staleSeconds retryBackoffSeconds) := rfl
  obtain ⟨⟨⟨hi', hagreed'⟩, -⟩, q, ⟨⟨hq, hagreed⟩, -⟩, hpast, ho, hdb, rfl⟩ :=
    (storing_valid unicode).ends_past htogether rfl h hi
  rw [← hdb] at hy hdue
  obtain ⟨t, ht, -, hfile⟩ := Database.file_of_transfer hq.sound hy
  -- the deposit is paid, since its transfer could be taken
  have hpaid : t.status = .paid := by
    have hst := status_of_claimable hdue
    have hf := hagreed _ _ hfile
    have hpending := hst.resolve_right hf.ne_processing
    refine (hf.of_open (.inl hpending)).2.resolve_right fun hcharged => ?_
    simp [dueAt, claimable, ht, hcharged.1] at hdue
  have ho : Outcome unicode (processInTransaction staleSeconds retryBackoffSeconds)
    (.processed true) x q := ho
  have hstep := Outcome.fileStep hq (fun q' hq' => (hpast q' hq').1.1.1) ho z.transactionId
  rw [hfile] at hstep
  generalize hfile' : (replay x.pending q.db).file z.transactionId = f' at hstep
  cases hstep with
  | kept hother =>
    -- it has been sent
    cases ho with
    | @processed y _ a ws hrow hcalls _ hpending =>
      rw [claimed?_of_pending hpending] at hclaimed
      obtain rfl : y = z := eq_of_id (Table.mem_of_find? hrow.row) hy (Option.some.inj hclaimed)
      have hkey := hother (y.request, a) (by rw [hcalls]; exact List.mem_singleton_self _)
      exact absurd (hq.sound.idempotencyKey_eq hy) hkey
  | @recorded _ _ y' now' a set _ t' k hid _ hcalls hset hupdated =>
    rw [hdb] at hfile'
    obtain ⟨ht', htransfer, -⟩ := Database.find?_of_file hfile'
    obtain ⟨hy', -⟩ := (Database.transferOf_eq_some hi'.sound).mp htransfer
    have hsame := hset.samePayout
    have hmem : (z.request, a) ∈ x.calls := by
      rw [hcalls]
      exact List.mem_singleton_self _
    have hanswer : a = answers z.request := hx (z.request, a) hmem
    have hstands := stands_of_recorded hpaid hset hupdated (hagreed' _ _ hfile')
    rw [hanswer] at hstands
    have hattempt : y'.attemptNumber = z.attemptNumber + 1 := hset.attemptNumber
    refine ⟨t', y', ht', ?_, hsame, by omega, hstands⟩
    rw [← hsame.id]
    exact Table.find?_of_mem hy'

/-! ## Drains -/

/-- No call of the drain raises, and every call to BingX has got this answer. -/
def Smooth (answers : TransferRequest → Answer) (ps : List ProcessStep) : Prop :=
  ∀ p ∈ ps, ¬ p.Raises ∧ p.txn.AnsweredBy answers

variable {ps : List ProcessStep} {y z : BingxTransfer}

/-- What has been handled stays so while others are. -/
theorem Handled.congr (h : Handled unicode answers z s.db)
    (htransaction : s'.db.transactions.find? z.transactionId =
      s.db.transactions.find? z.transactionId)
    (htransfer : s'.db.bingxTransfers.find? z.id = s.db.bingxTransfers.find? z.id) :
    Handled unicode answers z s'.db := by
  obtain ⟨t, z', ht, hz', hrest⟩ := h
  exact ⟨t, z', htransaction.trans ht, htransfer.trans hz', hrest⟩

/-- What has been handled before is handled when it is sent again. -/
theorem Handled.again {z' : BingxTransfer} (h : z.SamePayout z')
    (hattempt : z.attemptNumber < z'.attemptNumber) (hz : Handled unicode answers z' s.db) :
    Handled unicode answers z s.db := by
  obtain ⟨t, y, ht, hy, hsame, hless, hstands⟩ := hz
  rw [h.transactionId] at ht
  rw [h.id] at hy
  rw [h.request] at hstands
  exact ⟨t, y, ht, hy, h.trans hsame, hattempt.trans hless, hstands⟩

/-- The rule for one transfer in a drain that raises nothing: what a call makes true that takes
the transfer, and the others leave, is true in the end if the transfer was due. -/
theorem Drains.tracks {K : ProcessStep → Prop} {H : Shared signature → Prop}
    (taken : ∀ s x s₁ y, (storing unicode).inv s →
      Ends (bank unicode) (processInTransaction staleSeconds retryBackoffSeconds) s
        (some (.ok (.processed true))) x s₁ → K ⟨s, some (.ok (.processed true)), x, s₁⟩ →
      y ∈ s.db.bingxTransfers.rows →
      (⟨s, some (.ok (.processed true)), x, s₁⟩ : ProcessStep).claimed? = some y.id →
      y.id = z.id → (z ∈ s.db.bingxTransfers.rows ∨ H s) → H s₁)
    (spared : ∀ s s₁, (storing unicode).Leads s s₁ →
      s₁.db.transactions.find? z.transactionId = s.db.transactions.find? z.transactionId →
      s₁.db.bingxTransfers.find? z.id = s.db.bingxTransfers.find? z.id → H s → H s₁)
    (hd : Drains unicode staleSeconds retryBackoffSeconds s ps s') (hi : (storing unicode).inv s)
    (hps : ∀ p ∈ ps, ¬ p.Raises ∧ K p)
    (hrow : ∃ z', s.db.bingxTransfers.find? z.id = some z' ∧ z.SamePayout z')
    (hz : Due staleSeconds retryBackoffSeconds s z ∨ H s) : H s' := by
  have htogether : Job.Together (processInTransaction staleSeconds retryBackoffSeconds) := rfl
  induction hd with
  | @last s s' r x hends hlast =>
    obtain ⟨hraises, -⟩ := hps _ List.mem_cons_self
    have hvalue : ∃ v, r = some (.ok v) := by
      by_contra hno
      exact hraises fun v hv => hno ⟨v, hv⟩
    obtain ⟨v, rfl⟩ := hvalue
    rcases process_cases hends with
      ⟨hnil, hr | ⟨hr, now, hle, hnone⟩⟩ | ⟨now, y, ws, -, -, -, hpending⟩
    · cases hr
    · -- nothing was due any more
      have hsame : s'.db = s.db := by
        obtain ⟨ha⟩ := hends
        show replay x.pending _ = s.db
        rw [hnil]
        exact ha.db_eq
      refine spared s s' ((storing_valid unicode).ends htogether rfl hends hi).2.1 (by rw [hsame])
        (by rw [hsame]) (hz.resolve_left fun hdue => ?_)
      have hno := hnone z hdue.1
      rw [dueAt_mono hle hdue.2] at hno
      cases hno
    · rcases process_settles hends with ⟨-, hnil⟩ | ⟨rfl, -⟩
      · rw [hpending] at hnil
        cases hnil
      · exact absurd rfl hlast
  | @next s s₁ s' x ps hends hd ih =>
    obtain ⟨-, hK⟩ := hps _ List.mem_cons_self
    obtain ⟨y, y', hclaimed, hsettles⟩ := exists_settles hends
    have hnow := (now_of_ends hi.1.1 hends).2
    obtain ⟨hi₁, hleads, -⟩ := (storing_valid unicode).ends htogether rfl hends hi
    obtain ⟨z', hz', hsame⟩ := hrow
    have hpersists := hleads.lift (r := fun s s' => Persists s.db s'.db)
      (fun s => Persists.refl s.db) (fun _ _ _ => Persists.trans)
      fun _ _ (hg : Guar _ _) => hg.db.persists
    have hrow₁ : ∃ z'', s₁.db.bingxTransfers.find? z.id = some z'' ∧ z.SamePayout z'' := by
      obtain ⟨z'', hz'', hsame'⟩ := hpersists.transfer _ _ hz'
      exact ⟨z'', hz'', hsame.trans hsame'⟩
    refine ih hi₁ (fun p hp => hps p (List.mem_cons_of_mem _ hp)) hrow₁ ?_
    by_cases hid : z.id = y.id
    · exact .inr (taken s x s₁ y hi hends hK hsettles.row hclaimed hid.symm
        (hz.imp_left fun hdue => hdue.1))
    · refine hz.imp (fun hdue => (hsettles.spared hi.1.1 hdue.1 hid).due hnow hdue) fun hH => ?_
      refine spared s s₁ hleads (hsettles.transactions _ fun he => hid ?_) (hsettles.find?_ne hid)
        hH
      -- a deposit has one transfer
      have hsingle := hi.1.1.sound.single z' (Table.mem_of_find? hz') y hsettles.row
        (hsame.transactionId.trans he)
      rw [← hsame.id, hsingle]

/-- A smooth drain handles what is due, and leaves what it has handled. -/
theorem drain_handles (hd : Drains unicode staleSeconds retryBackoffSeconds s ps s')
    (hi : (storing unicode).inv s) (hsmooth : Smooth answers ps)
    (hz : Due staleSeconds retryBackoffSeconds s z) : Handled unicode answers z s'.db := by
  have hps : ∀ p ∈ ps, ¬ p.Raises ∧ p.txn.AnsweredBy answers := hsmooth
  refine Drains.tracks (K := fun p => p.txn.AnsweredBy answers)
    (H := fun s => Handled unicode answers z s.db) ?_ (fun _ _ _ ht hy h => h.congr ht hy) hd hi
    hps ⟨z, Table.find?_of_mem hz.1, .refl z⟩ (.inl hz)
  intro s x s₁ y hi hends hanswered hy hclaimed hid hz
  have hhandled := handled_of_ends hi hends hanswered hy hclaimed
  rcases hz with hmem | ⟨t, z', -, hz', hsame, hattempt, -⟩
  · obtain rfl : y = z := eq_of_id hy hmem hid
    exact hhandled
  · obtain rfl : z' = y := eq_of_id (Table.mem_of_find? hz') hy (hsame.id.trans hid.symm)
    exact .again hsame hattempt hhandled

theorem Smooth.cons {r : Option (Except Error Result)} {v : Result} (hr : r = some (.ok v))
    (hx : x.AnsweredBy answers) (h : Smooth answers ps) : Smooth answers (⟨s, r, x, s'⟩ :: ps) := by
  intro p hp
  rcases List.mem_cons.mp hp with rfl | hp
  · exact ⟨fun hraises => hraises v hr, hx⟩
  · exact h p hp

theorem unsent_processInTransaction :
    (program unicode (processInTransaction staleSeconds retryBackoffSeconds)).Unsent := by
  refine .bind (.bind (fun now => fun v => trivial) fun claimed => ?_) fun _ => trivial
  cases claimed with
  | none => exact trivial
  | some transfer =>
    simp only [createInternalTransfer]
    split
    · exact trivial
    · intro a
      change (recordOutcome unicode transfer (readAnswer unicode a) >>= fun _ => pure true).Unsent
      refine .bind ?_ fun _ => trivial
      rw [recordOutcome_eq]
      exact silent_follow.unsent

/-- What a call of the drain sends has been served when the call ends. -/
def Served (C : TransferRequest → Bingx → Prop) (ps : List ProcessStep) : Prop :=
  ∀ p ∈ ps, ∀ c ∈ p.txn.calls, C c.1 p.after.ext

theorem Served.cons {C : TransferRequest → Bingx → Prop} {p : ProcessStep}
    (hp : ∀ c ∈ p.txn.calls, C c.1 p.after.ext) (h : Served C ps) : Served C (p :: ps) :=
  List.forall_mem_cons.mpr ⟨hp, h⟩

/-- With answers that can be recorded there is a smooth drain, and what can be served is. -/
theorem exists_smooth_drain {C : TransferRequest → Bingx → Prop} (hC : Serves (bank unicode) C)
    (hroute : ∀ q, (answerRoute unicode (answers q)).Recordable)
    (hi : (storing unicode).inv s) (ids : List String)
    (hids : ∀ y ∈ s.db.bingxTransfers.rows, y.id ∈ ids) :
    ∃ ps s', Drains unicode staleSeconds retryBackoffSeconds s ps s' ∧ Smooth answers ps ∧
      Served C ps := by
  -- every call uses up one of the attempts that are left
  induction hn : (ids.map s.db.left).sum using Nat.strongRecOn generalizing s with
  | ind n ih =>
    obtain ⟨r, x, s₁, ha, hanswered, hserved⟩ := Prog.exists_alone hC ""
      (program unicode (processInTransaction staleSeconds retryBackoffSeconds))
      unsent_processInTransaction s (x := {})
      ⟨List.forall_mem_nil _, List.forall_mem_nil _⟩
    have hquiet :=
      (after_processInTransaction (stocked_of_inv hi) hroute).of_alone ha r rfl hanswered
    cases r with
    | error e => exact absurd rfl (hquiet e)
    | ok v =>
      have hends : Ends (bank unicode) (processInTransaction staleSeconds retryBackoffSeconds) s
        (some (.ok v)) x (settled (some (.ok v)) x s₁) := ⟨ha⟩
      rcases process_settles hends with ⟨rfl, -⟩ | ⟨rfl, -⟩
      · have hlast := Drains.last hends fun he => by cases he
        exact ⟨_, _, hlast, .cons rfl hanswered (List.forall_mem_nil _),
          .cons hserved (List.forall_mem_nil _)⟩
      · obtain ⟨y, y', -, hsettles⟩ := exists_settles hends
        have htogether : Job.Together (processInTransaction staleSeconds retryBackoffSeconds) := rfl
        have hless :
            (ids.map (settled (some (.ok (Result.processed true))) x s₁).db.left).sum < n := by
          rw [← hn]
          exact List.sum_lt_sum _ _ (fun id _ => hsettles.left_le id)
            ⟨y.id, hids y hsettles.row, hsettles.left_lt⟩
        obtain ⟨ps, s', hd, hsmooth, hrest⟩ := ih _ hless
          ((storing_valid unicode).ends htogether rfl hends hi).1 (hsettles.mem_ids hids) rfl
        exact ⟨_, s', .next hends hd, .cons rfl hanswered hsmooth, .cons hserved hrest⟩

/-! ## Every history -/

variable {start : Shared signature} {tr : List (Transition signature)}

/-- When no session is open, as after a restart, and what BingX answers can be recorded, there
is a drain that raises nothing; and every such drain leaves each transfer that was due, and its
deposit, as the answer to its request says. -/
theorem drain_settles (hs : Opening start) (hr : Run (bank unicode) start tr (.idle s))
    (hj : Contract.Starts Job.Together tr) (staleSeconds retryBackoffSeconds : ℤ)
    (hroute : ∀ q, (answerRoute unicode (answers q)).Recordable) :
    (∃ ps s', Drains unicode staleSeconds retryBackoffSeconds s ps s' ∧ Smooth answers ps) ∧
      ∀ ps s', Drains unicode staleSeconds retryBackoffSeconds s ps s' → Smooth answers ps →
        ∀ y, Due staleSeconds retryBackoffSeconds s y → Handled unicode answers y s'.db := by
  have hi : (storing unicode).inv s :=
    ⟨⟨run_inv hs hr, ((agreeing_valid unicode).run ⟨hs.inv, hs.agreed⟩ hr hj).inv.2⟩,
      run_admitted hs hr hj⟩
  refine ⟨?_, fun ps s' hd hsmooth y hy => drain_handles hd hi hsmooth hy⟩
  obtain ⟨ps, s', hd, hsmooth, -⟩ := exists_smooth_drain (serves_true _) hroute hi _ fun y hy =>
    List.mem_map_of_mem (f := BingxTransfer.id) hy
  exact ⟨ps, s', hd, hsmooth⟩

end

/-- BingX accepts whatever it is sent. -/
def alwaysAccepts : TransferRequest → Answer := fun _ => acceptance

/-- Two deposits are paid, and a drain completes the older one's payout. -/
theorem drain_settles_paid : ∃ tr s y ps s' y', Run (bank .ascii) launch tr (.idle s) ∧
    Due 0 0 s y ∧ Drains .ascii 0 0 s ps s' ∧ s'.db.bingxTransfers.find? y.id = some y' ∧
    y'.status = .completed := by
  obtain ⟨tr, w, hr, hactions, hw⟩ := Run.exists_of_trace (bank .ascii) launch twoPaid
    (fun r => drainsTo [acceptance, acceptance]
      [(some "payout", false), (some "payout2", false), (none, false)] r.2) (b := true)
    (by decide +kernel)
  have hj : Contract.Starts Job.Together tr := Contract.Starts.of_actions hactions (by decide)
  obtain ⟨hidle, y, -, -, -, -, -, hdue, -⟩ := of_drainsTo hw
  have hidle : w = .idle w.shared := hidle
  rw [hidle] at hr
  have haccepted : (answerRoute .ascii acceptance).Recordable ∧
      (answerRoute .ascii acceptance).ending = .completed := by decide +kernel
  have hroute : ∀ q, (answerRoute .ascii (alwaysAccepts q)).Recordable := fun _ => haccepted.1
  obtain ⟨⟨ps, s', hd, hsmooth⟩, hsettles⟩ := drain_settles opening_launch hr hj 0 0 hroute
  obtain ⟨t, y', -, hy', -, -, hstands⟩ := hsettles ps s' hd hsmooth y hdue
  refine ⟨tr, w.shared, y, ps, s', y', hr, hdue, hd, hy', ?_⟩
  have hending : (answerRoute .ascii (alwaysAccepts y.request)).ending = .completed := haccepted.2
  rw [hending] at hstands
  exact hstands.of_completed.1

end MoneyWay
