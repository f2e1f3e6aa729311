import MoneyWay.PayoutSafety

/-!
# Attempts and retries

The worker tests the number of attempts against its limit, and every claim that commits is
an attempt, also one that BingX refuses for want of balance. So a transfer is given up when
its last answer can be retried and is at least the third one, whatever came before. A
worker that is rolled back has made no attempt, whatever it has sent.
-/

set_option autoImplicit false

namespace MoneyWay

open Keyed ReadCommitted Python Sql

namespace Route

/-- A connection error, or an error of BingX of no known kind. -/
def Retryable : Route → Prop
  | .retry _ => True
  | _ => False

instance : DecidablePred Retryable
  | .retry _ => isTrue trivial
  | .complete _ _ | .hold _ | .fail _ | .uncaught => isFalse id

end Route

/-- What the requests of a transition with this key have come to. -/
def answersOf (unicode : Unicode) (key : String) (x : Transition signature) : List Route :=
  (x.calls.filter fun c => c.1.idempotencyKey = key).map fun c => answerRoute unicode c.2

/-- The answers the steps that have committed have had for the transfer with this key,
the last one first. -/
def answersTo (unicode : Unicode) (key : String) (tr : List (Transition signature)) :
    List Route :=
  tr.flatMap (answersOf unicode key)

/-- How many of the answers can be retried. -/
def retries (as : List Route) : ℕ := as.countP fun r => decide r.Retryable

/-- The last answer can be retried and is one of at least `maxTransferAttempts`. -/
def GivenUp (as : List Route) : Prop :=
  ∃ r rest, as = r :: rest ∧ r.Retryable ∧ maxTransferAttempts ≤ as.length

/-- What the answers say of the transfer. -/
structure Counted (as : List Route) (y : BingxTransfer) : Prop where
  attempts : y.attemptNumber = as.length
  error : y.status = .error ↔ GivenUp as
  most : retries as ≤ maxTransferAttempts
  more : y.status ≠ .error → retries as < maxTransferAttempts

/-- The answers for the transfer of a file. -/
def File.Counted (as : List Route) (f : Option File) : Prop :=
  match f.bind File.transfer with
  | none => as = []
  | some y => MoneyWay.Counted as y

theorem retries_cons (r : Route) (as : List Route) :
    retries (r :: as) = retries as + if r.Retryable then 1 else 0 := by
  simp [retries, List.countP_cons]

@[simp] theorem retries_retry (payload : Json) (as : List Route) :
    retries (.retry payload :: as) = retries as + 1 := by
  rw [retries_cons]
  rfl

theorem retries_le_length (as : List Route) : retries as ≤ as.length := List.countP_le_length

/-- One more answer for a claimed transfer. -/
theorem Counted.settled {as : List Route} {y y' : BingxTransfer} {now : Timestamp} {route : Route}
    {set : Option (Transaction → Transaction)} (h : Counted as y)
    (hst : y.status = .pending ∨ y.status = .processing) (hset : Settled y now route y' set) :
    Counted (route :: as) y' := by
  have hmore : retries as < maxTransferAttempts := h.more (by rcases hst with he | he <;> simp [he])
  have hlen := retries_le_length as
  have hattempts := h.attempts
  -- an answer that cannot be retried
  have other {y' : BingxTransfer} (hr : ¬ route.Retryable) (hst' : y'.status ≠ .error)
      (ha : y'.attemptNumber = y.attemptNumber + 1) : Counted (route :: as) y' := by
    refine ⟨by simp [ha, hattempts], ?_, ?_, fun _ => ?_⟩
    · refine ⟨fun he => absurd he hst', ?_⟩
      rintro ⟨r, rest, he, hret, -⟩
      obtain ⟨rfl, -⟩ := List.cons.inj he
      exact absurd hret hr
    · rw [retries_cons, if_neg hr]
      exact hmore.le
    · rw [retries_cons, if_neg hr]
      exact hmore
  cases hset with
  | completed => exact other id (by simp [BingxTransfer.complete]) rfl
  | held => exact other id (by simp [BingxTransfer.settle]) rfl
  | failed => exact other id (by simp [BingxTransfer.settle]) rfl
  | @retried payload now₁ hn =>
    have hcount := retries_retry payload as
    refine ⟨by simp [BingxTransfer.settle, claim, hattempts], ?_, by omega, fun _ => by omega⟩
    refine ⟨fun he => by simp [BingxTransfer.settle] at he, ?_⟩
    rintro ⟨r, rest, he, -, hmax⟩
    rw [List.length_cons] at hmax
    omega
  | @escalated payload now₁ now₂ hn =>
    have hcount := retries_retry payload as
    refine ⟨by simp [BingxTransfer.settle, claim, hattempts], ?_, by omega, fun hne => ?_⟩
    · refine ⟨fun _ => ⟨_, as, rfl, trivial, ?_⟩, fun _ => by simp [BingxTransfer.settle]⟩
      rw [List.length_cons]
      omega
    · simp [BingxTransfer.settle] at hne

/-- A transfer whose status changes to another than error between two answers. -/
theorem Counted.congr {as : List Route} {y y' : BingxTransfer} (h : Counted as y)
    (ha : y'.attemptNumber = y.attemptNumber) (hst : y.status ≠ .error)
    (hst' : y'.status ≠ .error) : Counted as y' :=
  ⟨ha.trans h.attempts, ⟨fun he => absurd he hst', fun hg => absurd (h.error.mpr hg) hst⟩,
    h.most, fun _ => h.more hst⟩

section

variable {unicode : Unicode} {start : Shared signature} {tr : List (Transition signature)}
  {w : World signature}

theorem answers_eq_nil {x : Transition signature} {key : String}
    (h : ∀ c ∈ x.calls, c.1.idempotencyKey ≠ key) : answersOf unicode key x = [] := by
  rw [answersOf, List.map_eq_nil_iff, List.filter_eq_nil_iff]
  simpa using h

theorem answersTo_cons (key : String) (x : Transition signature)
    (tr : List (Transition signature)) :
    answersTo unicode key (x :: tr) = answersOf unicode key x ++ answersTo unicode key tr :=
  List.flatMap_cons

/-- The step lemma: a commit adds the answer it has had to the count. -/
theorem FileStep.counted {x : Transition signature} {s : Session signature} {id : String}
    {v : Result} {f f' : Option File} (hc : x.Commits s v) (hs : Inv x.before.shared)
    (hstep : FileStep unicode s.txn x.before.shared id s.job v f f')
    (h : File.Counted (answersTo unicode (idempotencyKey id) tr) f) :
    File.Counted (answersTo unicode (idempotencyKey id) (x :: tr)) f' := by
  have hcalls := hc.calls
  generalize s.job = j at hstep
  have kept (hnone : answersOf unicode (idempotencyKey id) x = []) :
      answersTo unicode (idempotencyKey id) (x :: tr) =
        answersTo unicode (idempotencyKey id) tr := by
    rw [answersTo_cons, hnone, List.nil_append]
  have silent (hnil : s.txn.calls = []) : answersTo unicode (idempotencyKey id) (x :: tr) =
      answersTo unicode (idempotencyKey id) tr :=
    kept (answers_eq_nil (by simp [hcalls, hnil]))
  cases hstep with
  | kept hother =>
    rw [kept (answers_eq_nil (by rwa [hcalls]))]
    exact h
  | created _ _ hnil | rejected _ _ _ _ hnil | disputed _ _ _ _ _ hnil =>
    rw [silent hnil]
    exact h
  | paid _ _ _ _ _ _ _ _ _ hnil =>
    rw [silent hnil]
    obtain h : answersTo unicode (idempotencyKey id) tr = [] := h
    rw [h]
    exact ⟨rfl, ⟨fun he => by simp [newTransfer] at he, fun ⟨_, _, he, _⟩ => by cases he⟩,
      by simp [retries], fun _ => by simp [retries, maxTransferAttempts]⟩
  | cancelled _ _ _ _ hst hnil =>
    rw [silent hnil]
    exact Counted.congr h rfl (by rcases hst with he | he <;> simp [he])
      (by simp [BingxTransfer.cancel])
  | reset _ hst hnil =>
    rw [silent hnil]
    exact Counted.congr h rfl (by simp [hst]) (by simp [BingxTransfer.release])
  | @recorded settings y y' now a set t t' k hid hclaimed hone hset _ =>
    obtain ⟨q, -, -, hclaim⟩ := hclaimed.claimed
    have hkey : y.request.idempotencyKey = idempotencyKey id := by
      rw [← hid]
      exact hs.sound.idempotencyKey_eq (Table.mem_of_find? hclaimed.row)
    have hanswers : answersOf unicode (idempotencyKey id) x = [answerRoute unicode a] := by
      simp [answersOf, hcalls, hone, hkey]
    rw [answersTo_cons, hanswers]
    exact Counted.settled h (status_of_claimable hclaim) hset

/-- The run lemma. -/
theorem run_counted (hs : Opening start) (hr : Run (bank unicode) start tr w)
    (hj : Contract.Starts Job.Together tr) (id : String) :
    File.Counted (answersTo unicode (idempotencyKey id) tr) (w.shared.db.file id) := by
  refine file_induction hs id
    (motive := fun tr f => File.Counted (answersTo unicode (idempotencyKey id) tr) f) rfl ?_ ?_ hr
    hj
  · intro tr x f hne ih
    have hnone : answersOf unicode (idempotencyKey id) x = [] :=
      answers_eq_nil (by simp [Transition.calls_eq_nil hne])
    rw [answersTo_cons, hnone]
    exact ih
  · rintro tr x s v f' - hi hc - hstep - ih
    exact hstep.counted hc hi ih

/-- The answers for a stored transfer. -/
theorem run_counted_transfer (hs : Opening start) (hr : Run (bank unicode) start tr w)
    (hj : Contract.Starts Job.Together tr) {y : BingxTransfer}
    (hy : y ∈ w.shared.db.bingxTransfers.rows) :
    Counted (answersTo unicode y.idempotencyKey tr) y := by
  have hi := run_inv hs hr
  obtain ⟨t, -, -, hfile⟩ := Database.file_of_transfer hi.sound hy
  have hcounted := run_counted hs hr hj y.transactionId
  rw [hfile] at hcounted
  rw [hi.sound.idempotencyKey_eq hy]
  exact hcounted

/-- The last answer can be retried and has made the attempts too many, while fewer than
`maxTransferAttempts` of the answers could be retried. -/
def BurntByHolds (as : List Route) : Prop := GivenUp as ∧ retries as < maxTransferAttempts

/-- A transfer is escalated exactly when it has had `maxTransferAttempts` answers that can
be retried, unless holds for want of balance have used the attempts up before. -/
theorem escalated_iff_retries (hs : Opening start) (hr : Run (bank unicode) start tr w)
    (hj : Contract.Starts Job.Together tr) {y : BingxTransfer}
    (hy : y ∈ w.shared.db.bingxTransfers.rows) :
    (y.status = .error ↔ retries (answersTo unicode y.idempotencyKey tr) = maxTransferAttempts) ↔
      ¬ BurntByHolds (answersTo unicode y.idempotencyKey tr) := by
  have h := run_counted_transfer hs hr hj hy
  constructor
  · rintro hiff ⟨hgiven, hfew⟩
    exact absurd (hiff.mp (h.error.mpr hgiven)) hfew.ne
  · intro hnot
    constructor
    · intro he
      by_contra hne
      exact hnot ⟨h.error.mp he, lt_of_le_of_ne h.most hne⟩
    · intro he
      by_contra hne
      exact absurd he (h.more hne).ne

end

/-- An attempt that breaks off, and what is recorded of it in `n` operations. -/
def brokenAttempt (n : ℕ) : List (Action signature) :=
  sendPayout 0 ++ recordAnswer 0 (.connectionError "read timeout") n ++ [commit 0]

/-- Three broken connections in a row. -/
def threeBrokenAttempts : List (Action signature) :=
  paidDeposit ++ brokenAttempt 2 ++ brokenAttempt 2 ++ brokenAttempt 6

/-- The status and the key of the payout, and how many of its answers could be retried. -/
def payoutRetries (r : List (Transition signature) × World signature) :
    Option (TransferStatus × String) × ℕ × ℕ :=
  let as := answersTo .ascii payout.idempotencyKey r.1
  ((r.2.shared.db.bingxTransfers.find? "payout").map fun y => (y.status, y.idempotencyKey),
    retries as, as.length)

/-- Three broken connections escalate the payout. -/
theorem escalated_iff_retries_broken : ∃ tr w y, Run (bank .ascii) launch tr w ∧
    y ∈ w.shared.db.bingxTransfers.rows ∧ y.status = .error ∧
    retries (answersTo .ascii y.idempotencyKey tr) = maxTransferAttempts := by
  obtain ⟨tr, w, hr, hactions, hw⟩ := Run.exists_of_trace (bank .ascii) launch
    threeBrokenAttempts payoutRetries
    (b := (some (.error, payout.idempotencyKey), 3, 3)) (by decide)
  have hj : Contract.Starts Job.Together tr := Contract.Starts.of_actions hactions (by decide)
  obtain ⟨hrow, hcount⟩ := Prod.mk.inj hw
  obtain ⟨y, hy, hst⟩ := Option.map_eq_some_iff.mp hrow
  obtain ⟨hstatus, hkey⟩ := Prod.mk.inj hst
  have hmem := Table.mem_of_find? hy
  refine ⟨tr, w, y, hr, hmem, hstatus, ?_⟩
  refine ((escalated_iff_retries opening_launch hr hj hmem).mpr ?_).mp hstatus
  rintro ⟨-, hfew⟩
  rw [hkey, (Prod.mk.inj hcount).1] at hfew
  exact absurd hfew (by decide)

/-- One answer for want of balance and two broken connections escalate it as well. -/
theorem not_escalated_iff_retries : ¬ ∀ (unicode : Unicode) (start : Shared signature)
    (tr : List (Transition signature)) (w : World signature), Opening start →
    Run (bank unicode) start tr w → Contract.Starts Job.Together tr →
    ∀ y ∈ w.shared.db.bingxTransfers.rows, y.status = .error ↔
      retries (answersTo unicode y.idempotencyKey tr) = maxTransferAttempts := by
  intro h
  obtain ⟨tr, w, hr, hactions, hw⟩ := Run.exists_of_trace (bank .ascii) launch
    (heldDeposit ++ resetPayout 0 ++ commit 0 :: brokenAttempt 2 ++ brokenAttempt 6) payoutRetries
    (b := (some (.error, payout.idempotencyKey), 2, 3)) (by decide)
  have hj : Contract.Starts Job.Together tr := Contract.Starts.of_actions hactions (by decide)
  obtain ⟨hrow, hcount⟩ := Prod.mk.inj hw
  obtain ⟨y, hy, hst⟩ := Option.map_eq_some_iff.mp hrow
  obtain ⟨hstatus, hkey⟩ := Prod.mk.inj hst
  have hthree := (h .ascii launch tr w opening_launch hr hj y (Table.mem_of_find? hy)).mp hstatus
  rw [hkey, (Prod.mk.inj hcount).1] at hthree
  exact absurd hthree (by decide)

/-! ## How often a transfer is sent -/

/-- No transfer on hold is returned to the queue. -/
def NoResets (tr : List (Transition signature)) : Prop :=
  ∀ x ∈ tr, ∀ s v transferId, x.Commits s v → s.job ≠ .resetOnHold transferId

/-- There are attempts left for a transfer that may be claimed. -/
structure BingxTransfer.Capped (y : BingxTransfer) : Prop where
  most : y.attemptNumber ≤ maxTransferAttempts
  left : y.status = .pending ∨ y.status = .processing → y.attemptNumber < maxTransferAttempts

section

variable {unicode : Unicode} {start : Shared signature} {tr : List (Transition signature)}
  {w : World signature}

/-- One more attempt takes the transfer from the queue or leaves another one. -/
theorem Settled.capped {y y' : BingxTransfer} {now : Timestamp} {route : Route}
    {set : Option (Transaction → Transaction)} (hset : Settled y now route y' set)
    (h : y.Capped) (hst : y.status = .pending ∨ y.status = .processing) : y'.Capped := by
  have hleft := h.left hst
  cases hset with
  | completed => exact ⟨hleft, by simp [BingxTransfer.complete]⟩
  | retried hn => exact ⟨hn.le, fun _ => hn⟩
  | _ => exact ⟨hleft, by simp [BingxTransfer.settle]⟩

theorem FileStep.capped {x : Txn signature} {s : Shared signature} {id : String} {j : Job}
    {v : Result} {f f' : Option File} (hstep : FileStep unicode x s id j v f f')
    (hno : ∀ transferId, j ≠ .resetOnHold transferId)
    (h : ∀ g ∈ f, ∀ y ∈ g.transfer, y.Capped) : ∀ g ∈ f', ∀ y ∈ g.transfer, y.Capped := by
  intro g' hg' y' hy'
  cases hstep with
  | kept => exact h g' hg' y' hy'
  | created | rejected =>
    cases hg'
    cases hy'
  | paid =>
    cases hg'
    cases hy'
    exact ⟨Nat.zero_le _, fun _ => (by decide : 0 < maxTransferAttempts)⟩
  | cancelled =>
    cases hg'
    cases hy'
    exact ⟨(h _ rfl _ rfl).most, by simp [BingxTransfer.cancel]⟩
  | disputed =>
    cases hg'
    exact h _ rfl y' hy'
  | recorded _ hclaimed _ hset =>
    cases hg'
    cases hy'
    obtain ⟨q, -, -, hclaim⟩ := hclaimed.claimed
    exact hset.capped (h _ rfl _ rfl) (status_of_claimable hclaim)
  | reset => exact absurd rfl (hno _)

theorem run_capped (hs : Opening start) (hr : Run (bank unicode) start tr w)
    (hj : Contract.Starts Job.Together tr) (hno : NoResets tr) (id : String) :
    ∀ g ∈ w.shared.db.file id, ∀ y ∈ g.transfer, y.Capped := by
  refine file_induction hs id (motive := fun tr f => NoResets tr →
    ∀ g ∈ f, ∀ y ∈ g.transfer, y.Capped) ?_ ?_ ?_ hr hj hno
  · intro _ g hg
    cases hg
  · exact fun tr x f _ ih hno => ih fun y hy => hno y (List.mem_cons_of_mem _ hy)
  · intro tr x s v f' _ _ hc _ hstep _ ih hno
    exact hstep.capped (hno x List.mem_cons_self s v · hc)
      (ih fun y hy => hno y (List.mem_cons_of_mem _ hy))

/-- Without resets, the steps that commit have sent a transfer at most
`maxTransferAttempts` times. -/
theorem committed_sends_le (hs : Opening start) (hr : Run (bank unicode) start tr w)
    (hj : Contract.Starts Job.Together tr) (hno : NoResets tr) {y : BingxTransfer}
    (hy : y ∈ w.shared.db.bingxTransfers.rows) :
    (answersTo unicode y.idempotencyKey tr).length ≤ maxTransferAttempts := by
  obtain ⟨t, -, -, hfile⟩ := Database.file_of_transfer (run_inv hs hr).sound hy
  rw [← (run_counted_transfer hs hr hj hy).attempts]
  exact (run_capped hs hr hj hno _ _ hfile y rfl).most

end

/-- No session that commits is a reset. -/
def resetsNothing (tr : List (Transition signature)) : Bool :=
  tr.all fun x => x.before.sessions.rows.all fun s =>
    match s.job with
    | .resetOnHold _ => false
    | _ => true

theorem NoResets.of_all {tr : List (Transition signature)} (h : resetsNothing tr = true) :
    NoResets tr := by
  intro x hx s v transferId hc hjob
  have hs := List.all_eq_true.mp (List.all_eq_true.mp h x hx) s (Table.mem_of_find? hc.1)
  rw [hjob] at hs
  exact Bool.false_ne_true hs

/-- The keys of the transfers, how many of the calls for the payout have committed, and how
often it has been sent. -/
def payoutSends (r : List (Transition signature) × World signature) : List String × ℕ × ℕ :=
  (r.2.shared.db.bingxTransfers.rows.map (·.idempotencyKey),
    (answersTo .ascii payout.idempotencyKey r.1).length,
    (r.1.filter fun x => (x.request?.map (·.idempotencyKey)) = some payout.idempotencyKey).length)

/-- Three attempts, and the last of them leaves nothing to claim. -/
theorem committed_sends_le_broken : ∃ tr w y, Run (bank .ascii) launch tr w ∧
    y ∈ w.shared.db.bingxTransfers.rows ∧
    (answersTo .ascii y.idempotencyKey tr).length ≤ maxTransferAttempts := by
  obtain ⟨tr, w, hr, hactions, hw⟩ := Run.exists_of_trace (bank .ascii) launch
    threeBrokenAttempts (fun r => (resetsNothing r.1, payoutSends r))
    (b := (true, [payout.idempotencyKey], 3, 3)) (by decide)
  have hj : Contract.Starts Job.Together tr := Contract.Starts.of_actions hactions (by decide)
  obtain ⟨hno, hsends⟩ := Prod.mk.inj hw
  have hmem : payout.idempotencyKey ∈ w.shared.db.bingxTransfers.rows.map (·.idempotencyKey) := by
    rw [(Prod.mk.inj hsends).1]
    exact List.mem_singleton_self _
  obtain ⟨y, hy, -⟩ := List.mem_map.mp hmem
  exact ⟨tr, w, y, hr, hy, committed_sends_le opening_launch hr hj (.of_all hno) hy⟩

/-- A worker that is rolled back once it has sent the transfer has not counted the
attempt: the transfer is sent a fourth time. -/
theorem not_sends_le : ¬ ∀ (unicode : Unicode) (start : Shared signature)
    (tr : List (Transition signature)) (w : World signature), Opening start →
    Run (bank unicode) start tr w → Contract.Starts Job.Together tr → NoResets tr →
    ∀ y ∈ w.shared.db.bingxTransfers.rows,
      (tr.filter fun x => (x.request?.map (·.idempotencyKey)) = some y.idempotencyKey).length ≤
        maxTransferAttempts := by
  intro h
  obtain ⟨tr, w, hr, hactions, hw⟩ := Run.exists_of_trace (bank .ascii) launch
    (paidDeposit ++ (List.range 4).flatMap fun i => sendPayout i ++ [.rollback i])
    (fun r => (resetsNothing r.1, payoutSends r))
    (b := (true, [payout.idempotencyKey], 0, 4)) (by decide)
  have hj : Contract.Starts Job.Together tr := Contract.Starts.of_actions hactions (by decide)
  obtain ⟨hno, hsends⟩ := Prod.mk.inj hw
  obtain ⟨hkeys, -, hfour⟩ := by simpa only [payoutSends, Prod.mk.injEq] using hsends
  have hmem : payout.idempotencyKey ∈ w.shared.db.bingxTransfers.rows.map (·.idempotencyKey) := by
    rw [hkeys]
    exact List.mem_singleton_self _
  obtain ⟨y, hy, hkey⟩ := List.mem_map.mp hmem
  have hle := h .ascii launch tr w opening_launch hr hj (.of_all hno) y hy
  rw [hkey, hfour] at hle
  exact absurd hle (by decide)

end MoneyWay
