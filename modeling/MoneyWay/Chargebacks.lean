import MoneyWay.QuietChargeback
import MoneyWay.PayoutSafety

/-!
# What a chargeback does

A chargeback of a deposit that has been paid is recorded, with both blacklist entries and
an alert, unless the payout has failed before; and it stops the payout unless that is on
hold.
-/

set_option autoImplicit false

namespace MoneyWay

open Keyed ReadCommitted Python Prog Sql

/-! ## Recorded, or left out -/

/-- A chargeback webhook ends that has found deposit `t`, which a paid webhook has marked
paid before and which is not charged back yet. -/
structure EndsChargeback (early : List (Transition signature)) (x : Transition signature)
    (s : Session signature) (p : SBPChargebackWebhook) (t : Transaction) : Prop where
  ends : x.Ends s
  job : s.job = .sbpChargebackWebhook p
  found : ∀ q, s.txn.snapshots[0]? = some q → q.db.transactions.find? p.transactionId ≠ none
  row : x.before.shared.db.transactions.find? p.transactionId = some t
  paid : ∃ y ∈ early, PaidBy t y
  ne_chargeback : t.status ≠ .chargeback

/-- The chargeback is recorded: the deposit is charged back, the address of its user and
the recipient are on the blacklist, and an alert is open. -/
structure ChargebackRecorded (x : Transition signature) (s : Session signature)
    (t : Transaction) : Prop where
  commits : ∃ v, x.Commits s v
  transaction : ∃ t', x.after.shared.db.transactions.find? t.id = some t' ∧
    t'.status = .chargeback
  email : ∃ u e, x.after.shared.db.users.find? t.userId = some u ∧
    x.after.shared.db.blacklist.find? (.email, u.email) = some e
  uid : ∃ e, x.after.shared.db.blacklist.find? (.uid, t.bingxUid) = some e
  alert : ∃ a, x.after.shared.db.fraudAlerts = x.before.shared.db.fraudAlerts ++ [a] ∧
    a.alertType = .chargeback ∧ a.transactionId = some t.id ∧ a.status = .opened

section Writes

variable {p : SBPChargebackWebhook} {d : Dossier} {db db' q : Database} {t : Transaction}
  {id id' : String} {now now₁ now₂ now₃ : Timestamp}

/-- Its transaction is charged back. -/
theorem find?_chargebackWrites : (replay (chargebackWrites p d db q (releaseWrites db' t) id id'
    now now₁ now₂ now₃) db).transactions.find? d.transaction.id =
      some (d.transaction.dispute now) := by
  have hfile := @Database.file_replay_bound db d.transaction.id
    (chargebackWrites p d db q (releaseWrites db' t) id id' now now₁ now₂ now₃)
  have htx := Table.find?_put_self db.transactions (d.transaction.dispute now)
  obtain ⟨hkept, -⟩ := replay_cancelWrites q p.transactionId now
    (db.apply (.transaction (d.transaction.dispute now)))
  have hrow : (replay (.transaction (d.transaction.dispute now) ::
      cancelWrites q p.transactionId now) db).transactions.find? d.transaction.id =
        some (d.transaction.dispute now) := by
    rw [replay_cons, store_apply, hkept]
    exact htx
  rw [bound_chargebackWrites, Database.file_of_find? hrow] at hfile
  exact (Database.find?_of_file hfile).1

theorem blacklist_chargebackWrites {type : BlacklistType} {value : String}
    (h : type = .email ∧ value = d.email ∨ type = .uid ∧ value = d.transaction.bingxUid)
    (hne : value ≠ "") :
    ∃ e, (replay (chargebackWrites p d db q (releaseWrites db' t) id id' now now₁ now₂ now₃)
      db).blacklist.find? (type, value) = some e := by
  have hmem : ∃ e : BlacklistEntry, e.key = (type, value) ∧ .blacklist e ∈
      chargebackWrites p d db q (releaseWrites db' t) id id' now now₁ now₂ now₃ := by
    rcases h with ⟨rfl, rfl⟩ | ⟨rfl, rfl⟩
    · refine ⟨blacklisted db (chargebackEntry .email d.email p.reason id now₁),
        key_blacklisted _ _, ?_⟩
      simp [chargebackWrites, blacklistWrites, hne]
    · refine ⟨blacklisted db (chargebackEntry .uid d.transaction.bingxUid p.reason id' now₂),
        key_blacklisted _ _, ?_⟩
      simp [chargebackWrites, blacklistWrites, hne]
  obtain ⟨e, hkey, hw⟩ := hmem
  have hr : (Store.row (.blacklist (type, value)) (replay (chargebackWrites p d db q
      (releaseWrites db' t) id id' now now₁ now₂ now₃) db)).isSome = true :=
    isSome_row_of_mem hw (by simp [hkey]) fun v hv _ => removes_chargebackWrites v hv
  simpa [Database.row, Option.isSome_iff_exists] using hr

end Writes

section

variable {unicode : Unicode} {start : Shared signature} {late early : List (Transition signature)}
  {x : Transition signature} {w : World signature} {s : Session signature}
  {p : SBPChargebackWebhook} {t : Transaction}

/-- A chargeback whose reason can be stored ends by its commit. -/
theorem EndsChargeback.commits (hs : Opening start) (hr : Run (bank unicode) start early x.before)
    (hj : Contract.Starts Job.Together early) (h : EndsChargeback early x s p t)
    (hreason : storableText p.reason = true) : ∃ v, x.Commits s v := by
  have hadm := run_admitted hs hr hj _ _ (Database.file_of_find? h.row)
  have hid : storableText p.transactionId = true := by
    rw [← Table.key_of_find? h.row]
    exact hadm.id
  have hbegin (d : Database) (hd : Sound d ∧ ∀ id f, d.file id = some f → f.Admitted) (j : Job)
      (hj : ∃ p, j = .sbpChargebackWebhook p ∧ storableText p.reason = true ∧
        storableText p.transactionId = true) :
      ((bank unicode).program j).Begins (fun _ => True) d := by
    obtain ⟨p, rfl, hreason, hid⟩ := hj
    exact begins_chargeback hd.1 hd.2 hreason hid
  have hmem := Table.mem_of_find? h.ends.session
  have hkind : ∃ p, s.job = .sbpChargebackWebhook p ∧ storableText p.reason = true ∧
      storableText p.transactionId = true := ⟨p, h.job, hreason, hid⟩
  have hsure := Run.sure (fun _ _ hr hj => ⟨(run_inv hs hr).sound, run_admitted hs hr hj⟩) hbegin
    hr hj s hmem hkind
  exact h.ends.commits (hsure.prog_ne_throw ⟨(run_inv hs hr).sound, run_admitted hs hr hj⟩
    fun _ _ => trivial)

/-- A deposit that has been paid is not pending. -/
theorem EndsChargeback.ne_pending (hs : Opening start)
    (hr : Run (bank unicode) start early x.before) (h : EndsChargeback early x s p t) :
    t.status ≠ .pending := by
  obtain ⟨y, hy, hpaid⟩ := h.paid
  obtain ⟨t₁, ht₁, hst₁⟩ := hpaid.after
  obtain ⟨l, e, rfl⟩ := List.append_of_mem hy
  obtain ⟨t₂, ht₂, -, hmoves⟩ := (run_persists hs hr).transaction _ _ ht₁
  rw [Table.key_of_find? h.row, h.row] at ht₂
  cases ht₂
  exact TransactionStatus.ne_pending_of_moves (by rw [hst₁]; simp) hmoves

/-- What the commit of a chargeback has done. -/
theorem chargeback_commit (hs : Opening start)
    (hr : Run (bank unicode) start (late ++ x :: early) w)
    (hj : Contract.Starts Job.Together (late ++ x :: early)) {v : Result} (hc : x.Commits s v)
    (hjob : s.job = .sbpChargebackWebhook p) :
    ChargebackOutcome s.txn x.before.shared p ∧ Seen s.txn x.before.shared ∧
      x.after.shared = ⟨replay s.txn.pending x.before.shared.db, x.before.shared.ext⟩ ∧
      FileStep unicode s.txn x.before.shared p.transactionId (.sbpChargebackWebhook p) v
        (x.before.shared.db.file p.transactionId) (x.after.shared.db.file p.transactionId) := by
  have hauto : (bank unicode).autocommit s.job = false := by
    rw [hjob]
    rfl
  obtain ⟨ho, hpast, hafter⟩ := (agreeing_valid unicode).commits (x := x) ⟨hs.inv, hs.agreed⟩
    hr hj (by simp) hc hauto
  have ho : Outcome unicode s.job v s.txn x.before.shared := ho
  rw [hjob] at ho
  have hseen := seen_of_past hpast
  obtain ⟨hearly, -⟩ := hr.cut
  refine ⟨ho.1, hseen, hafter, ?_⟩
  rw [hafter]
  exact Outcome.fileStep (run_inv hs hearly) (fun q hq => (hseen q hq).1) ho p.transactionId

/-- Only a deposit whose payout has not failed is charged back. -/
theorem ChargebackRecorded.eligible (hs : Opening start)
    (hr : Run (bank unicode) start (late ++ x :: early) w)
    (hj : Contract.Starts Job.Together (late ++ x :: early)) (h : EndsChargeback early x s p t)
    (hrec : ChargebackRecorded x s t) : t.status ≠ .failed ∧ storableText p.reason = true := by
  obtain ⟨⟨v, hc⟩, ⟨t', ht', hcharged⟩, -⟩ := hrec
  obtain ⟨ho, -, hafter, -⟩ := chargeback_commit hs hr hj hc h.job
  cases ho with
  | unmatched hq hnone => exact absurd hnone (h.found _ hq)
  | duplicate ht hst =>
    rw [h.row] at ht
    cases ht
    exact absurd hst h.ne_chargeback
  | ineligible ht hst helig hpending =>
    -- only the audit log is written
    have hkept : x.after.shared.db.transactions = x.before.shared.db.transactions := by
      rw [hafter, hpending]
      rfl
    rw [hkept, Table.key_of_find? h.row, h.row] at ht'
    cases ht'
    exact absurd hcharged h.ne_chargeback
  | charged ht helig _ _ _ _ _ _ hreason =>
    rw [h.row] at ht
    cases ht
    refine ⟨fun hfailed => ?_, hreason⟩
    simp [hfailed, chargebackEligibleStatuses] at helig

/-- A chargeback of a deposit whose payout has not failed is recorded. -/
theorem EndsChargeback.recorded (hs : Opening start)
    (hr : Run (bank unicode) start (late ++ x :: early) w)
    (hj : Contract.Starts Job.Together (late ++ x :: early)) (h : EndsChargeback early x s p t)
    (hfailed : t.status ≠ .failed) (hreason : storableText p.reason = true) :
    ChargebackRecorded x s t := by
  obtain ⟨hearly, -⟩ := hr.cut
  have hjearly : Contract.Starts Job.Together early := fun z hz => hj z (by simp [hz])
  have hadm := run_admitted hs hearly hjearly _ _ (Database.file_of_find? h.row)
  obtain ⟨v, hc⟩ := h.commits hs hearly hjearly hreason
  obtain ⟨ho, -, hafter, -⟩ := chargeback_commit hs hr hj hc h.job
  cases ho with
  | unmatched hq hnone => exact absurd hnone (h.found _ hq)
  | duplicate ht hst =>
    rw [h.row] at ht
    cases ht
    exact absurd hst h.ne_chargeback
  | ineligible ht hst helig =>
    -- a paid deposit that is not eligible has failed
    rw [h.row] at ht
    cases ht
    have hpending := h.ne_pending hs hearly
    cases hst : t.status <;> simp_all [chargebackEligibleStatuses]
  | @charged d u q release id id' now now₁ now₂ now₃ ht helig hu hemail hq hread hcancel hrel
      _ hpending =>
    rw [h.row] at ht
    cases ht
    obtain ⟨q', -, -, rfl, -⟩ := hrel
    have hdb : x.after.shared.db = replay (chargebackWrites p d x.before.shared.db q.db
        (releaseWrites q'.db d.transaction) id id' now now₁ now₂ now₃)
          x.before.shared.db := by rw [hafter, hpending]
    refine ⟨⟨v, hc⟩, ⟨d.transaction.dispute now, ?_, rfl⟩, ⟨u, ?_⟩, ?_,
      chargebackAlert d p.reason now, ?_, rfl, rfl, rfl⟩
    · rw [hdb]
      exact find?_chargebackWrites
    · have hne : u.email ≠ "" := u.email_nonempty
      rw [hdb, Database.users_replay]
      rw [← hemail] at hne ⊢
      obtain ⟨e, he⟩ := blacklist_chargebackWrites (.inl ⟨rfl, rfl⟩) hne
      exact ⟨e, hu, he⟩
    · rw [hdb]
      exact blacklist_chargebackWrites (.inr ⟨rfl, rfl⟩) hadm.bingxUid_nonempty
    · rw [hdb, Database.fraudAlerts_replay, filterMap_chargebackWrites (fun _ => rfl)
        (fun _ => rfl) fun _ => rfl]
      rfl

/-- No chargeback of a received payment is dropped, unless the payout has failed; the text
of the reason has to be one PostgreSQL can store. -/
theorem chargeback_recorded_iff (hs : Opening start)
    (hr : Run (bank unicode) start (late ++ x :: early) w)
    (hj : Contract.Starts Job.Together (late ++ x :: early)) (h : EndsChargeback early x s p t) :
    ChargebackRecorded x s t ↔ t.status ≠ .failed ∧ storableText p.reason = true :=
  ⟨fun hrec => hrec.eligible hs hr hj h, fun ⟨hfailed, hreason⟩ =>
    h.recorded hs hr hj hfailed hreason⟩

/-! ## Stopped, or left on hold -/

/-- The transfers of a deposit that may still be meant to be paid out. -/
def openTransfers (d : Database) (id : String) : List BingxTransfer :=
  d.bingxTransfers.rows.filter fun y => decide (y.transactionId = id ∧
    (y.status = .pending ∨ y.status = .processing ∨ y.status = .onHold))

/-- The payout of a deposit is stopped: no transfer is left open, each one that was is
cancelled, and the audit log counts them. -/
structure PayoutStopped (x : Transition signature) (id : String) : Prop where
  none_open : openTransfers x.after.shared.db id = []
  cancelled : ∀ y ∈ openTransfers x.before.shared.db id,
    ∃ y', x.after.shared.db.bingxTransfers.find? y.id = some y' ∧ y'.status = .cancelled
  counted : ∃ e payload, x.after.shared.db.auditLog = x.before.shared.db.auditLog ++ [e] ∧
    e.eventType = .chargebackReceived ∧ e.transactionId = some id ∧ e.payload = some payload ∧
    ("cancelled_transfers", .count (openTransfers x.before.shared.db id).length) ∈ payload

/-- There is one transfer to look at. -/
theorem filter_of_transferOf {d : Database} (hd : Sound d) {id : String} {y : BingxTransfer}
    (hy : d.transferOf id = some y) {c : BingxTransfer → Bool}
    (hc : ∀ z, c z = true → z.transactionId = id) :
    d.bingxTransfers.rows.filter c = if c y = true then [y] else [] := by
  obtain ⟨hmem, hid⟩ := (Database.transferOf_eq_some hd).mp hy
  have honly : ∀ z ∈ d.bingxTransfers.rows, c z = true → z = y :=
    fun z hz h => hd.single z hz y hmem ((hc z h).trans hid.symm)
  split
  · next h => exact Table.filter_eq_singleton hmem h honly
  · next h =>
    rw [List.filter_eq_nil_iff]
    exact fun z hz hz' => h (honly z hz hz' ▸ hz')

theorem openTransfers_of_transferOf {d : Database} (hd : Sound d) {id : String}
    {y : BingxTransfer} (hy : d.transferOf id = some y) : openTransfers d id =
      if y.status = .pending ∨ y.status = .processing ∨ y.status = .onHold then [y] else [] := by
  have hid := ((Database.transferOf_eq_some hd).mp hy).2
  rw [openTransfers, filter_of_transferOf hd hy fun z hz => (of_decide_eq_true hz).1]
  simp [hid]

theorem unsent_of_transferOf {d : Database} (hd : Sound d) {id : String} {y : BingxTransfer}
    (hy : d.transferOf id = some y) : unsent d id =
      if y.status = .pending ∨ y.status = .processing then [y] else [] := by
  have hid := ((Database.transferOf_eq_some hd).mp hy).2
  rw [unsent, filter_of_transferOf hd hy fun z hz => (of_decide_eq_true hz).1]
  simp [BingxTransfer.unsentOf, hid]

theorem heldOnRead_iff {x : Txn signature} {q : Shared signature} {id : String}
    {y : BingxTransfer} (hq : x.snapshots[2]? = some q) (hd : Sound q.db)
    (hy : q.db.transferOf id = some y) : HeldOnRead x id ↔ y.status = .onHold := by
  obtain ⟨hmem, hid⟩ := (Database.transferOf_eq_some hd).mp hy
  constructor
  · rintro ⟨q', hq', z, hz, hzid, hst⟩
    rw [hq] at hq'
    cases hq'
    rw [hd.single y hmem z hz (hid.trans hzid.symm)]
    exact hst
  · exact fun hst => ⟨q, hq, y, hmem, hid, hst⟩

/-- The audit entry of a chargeback counts what its `UPDATE` has cancelled. -/
theorem chargeback_counted {d : Dossier} {db q : Database} {u : Transaction} {db' : Database}
    {id id' : String} {now now₁ now₂ now₃ : Timestamp} {n : ℕ}
    (hn : n = (unsent q p.transactionId).length) :
    ∃ e payload, (replay (chargebackWrites p d db q (releaseWrites db' u) id id' now now₁ now₂
        now₃) db).auditLog = db.auditLog ++ [e] ∧
      e.eventType = .chargebackReceived ∧ e.transactionId = some d.transaction.id ∧
      e.payload = some payload ∧ ("cancelled_transfers", .count n) ∈ payload := by
  refine ⟨auditEntry .chargebackReceived (some d.transaction.userId) (some d.transaction.id)
    (chargebackDetails p (unsent q p.transactionId).length) none none none now₃,
    chargebackDetails p (unsent q p.transactionId).length, ?_, rfl, rfl, rfl, ?_⟩
  · rw [Database.auditLog_replay, filterMap_chargebackWrites (fun _ => rfl) (fun _ => rfl)
      fun _ => rfl]
    rfl
  · rw [hn]
    exact List.mem_append_right _ (List.mem_singleton_self _)

/-- A committed chargeback of an eligible deposit leaves no transfer of it open, exactly
when its `UPDATE` has not found the transfer on hold. -/
theorem chargeback_stops_payout_iff (hs : Opening start)
    (hr : Run (bank unicode) start (late ++ x :: early) w)
    (hj : Contract.Starts Job.Together (late ++ x :: early)) {v : Result} (hc : x.Commits s v)
    (hjob : s.job = .sbpChargebackWebhook p)
    (hfound : ∀ q, s.txn.snapshots[0]? = some q →
      q.db.transactions.find? p.transactionId ≠ none)
    (hrow : x.before.shared.db.transactions.find? p.transactionId = some t)
    (helig : t.status ∈ chargebackEligibleStatuses) :
    PayoutStopped x p.transactionId ↔ ¬ HeldOnRead s.txn p.transactionId := by
  obtain ⟨hearly, hstep⟩ := hr.cut
  have hjearly : Contract.Starts Job.Together early := fun z hz => hj z (by simp [hz])
  have hsound := (run_inv hs hearly).sound
  have hsound' := (run_inv hs (hearly.snoc hstep)).sound
  obtain ⟨ho, hseen, hafter, hfile⟩ := chargeback_commit hs hr hj hc hjob
  cases ho with
  | unmatched hq hnone => exact absurd hnone (hfound _ hq)
  | duplicate ht hst =>
    rw [hrow] at ht
    cases ht
    simp [hst, chargebackEligibleStatuses] at helig
  | ineligible ht _ hne =>
    rw [hrow] at ht
    cases ht
    exact absurd helig hne
  | @charged d u q release id id' now now₁ now₂ now₃ ht _ hu hemail hq hread hcancel hrel
      _ hpending =>
    rw [hrow] at ht
    cases ht
    obtain ⟨q', -, -, rfl, -⟩ := hrel
    have hdb : x.after.shared.db = replay (chargebackWrites p d x.before.shared.db q.db
        (releaseWrites q'.db d.transaction) id id' now now₁ now₂ now₃)
          x.before.shared.db := by rw [hafter, hpending]
    obtain ⟨hinv, hagreed, -⟩ := hseen q (List.mem_of_getElem? hq)
    obtain ⟨y, k, hy, hk, hyst⟩ :=
      (run_agrees hs hearly hjearly _ _ (Database.file_of_find? hrow)).of_eligible helig
    obtain ⟨z, k', hz, -, hzst⟩ := (hagreed _ _ (Database.file_of_find? hread)).of_eligible helig
    have hid : d.transaction.id = p.transactionId := Table.key_of_find? hrow
    have htx : x.after.shared.db.transactions.find? p.transactionId =
        some (d.transaction.dispute now) := by
      rw [hdb, ← hid]
      exact find?_chargebackWrites
    have hcounted {n : ℕ} (hn : n = (unsent q.db p.transactionId).length) :
        ∃ e payload, x.after.shared.db.auditLog = x.before.shared.db.auditLog ++ [e] ∧
          e.eventType = .chargebackReceived ∧ e.transactionId = some p.transactionId ∧
          e.payload = some payload ∧ ("cancelled_transfers", .count n) ∈ payload := by
      rw [hdb, ← hid]
      exact chargeback_counted hn
    rw [heldOnRead_iff hq hinv.sound hz]
    rw [Database.file_of_find? hrow, hy, hk] at hfile
    generalize hf' : x.after.shared.db.file p.transactionId = f' at hfile
    cases hfile with
    | kept =>
      -- the transaction has not stayed what it was
      obtain ⟨ht, -⟩ := Database.find?_of_file hf'
      rw [htx] at ht
      have hst := congrArg Transaction.status (Option.some.inj ht)
      rw [← hst] at helig
      simp [Transaction.dispute, chargebackEligibleStatuses] at helig
    | cancelled _ _ hq' hread' hopen =>
      rw [hq] at hq'
      cases hq'
      obtain ⟨-, hz', -⟩ := Database.find?_of_file hread'
      rw [hz] at hz'
      cases hz'
      obtain ⟨-, hy', -⟩ := Database.find?_of_file hf'
      have hfind := Table.find?_of_mem ((Database.transferOf_eq_some hsound').mp hy').1
      refine ⟨fun _ hst => ?_, fun _ => ⟨?_, ?_, hcounted ?_⟩⟩
      · rcases hopen with h | h <;> rw [hst] at h <;> cases h
      · rw [openTransfers_of_transferOf hsound' hy']
        simp [BingxTransfer.cancel]
      · intro y₀ hy₀
        rw [openTransfers_of_transferOf hsound hy] at hy₀
        split at hy₀
        · cases List.mem_singleton.mp hy₀
          exact ⟨_, hfind, rfl⟩
        · cases hy₀
      · rw [openTransfers_of_transferOf hsound hy, unsent_of_transferOf hinv.sound hz]
        rcases hopen with h | h <;> simp [h]
    | disputed _ _ hq' hread' hleft =>
      rw [hq] at hq'
      cases hq'
      obtain ⟨-, hz', -⟩ := Database.find?_of_file hread'
      rw [hz] at hz'
      cases hz'
      obtain ⟨-, hy', -⟩ := Database.find?_of_file hf'
      obtain ⟨hnp, hnr⟩ := hleft z rfl
      rcases hyst with ⟨hpaid, hyst⟩ | hdone
      · -- the transfer of a paid deposit is open still, and was on hold
        have hzheld : z.status = .onHold := by
          rcases hzst with ⟨-, h⟩ | ⟨h, -⟩ | ⟨h, -⟩
          · exact h.resolve_left hnp
          · rw [hpaid] at h
            cases h
          · rw [hpaid] at h
            cases h
        refine ⟨fun hstopped => ?_, fun hne => absurd hzheld hne⟩
        have hnil := hstopped.none_open
        rw [openTransfers_of_transferOf hsound' hy'] at hnil
        rcases hyst with h | h <;> simp [h] at hnil
      · have hclosed : ¬ (y.status = .pending ∨ y.status = .processing ∨ y.status = .onHold) := by
          rcases hdone with ⟨-, h⟩ | ⟨-, h⟩ <;> simp [h]
        have hbefore : openTransfers x.before.shared.db p.transactionId = [] := by
          rw [openTransfers_of_transferOf hsound hy, if_neg hclosed]
        have hunsent : unsent q.db p.transactionId = [] := by
          rw [unsent_of_transferOf hinv.sound hz]
          simp [hnp, hnr]
        refine ⟨fun _ hst => ?_, fun _ => ⟨?_, ?_, hcounted ?_⟩⟩
        · rcases hdone with ⟨hd, -⟩ | ⟨hd, -⟩ <;> rcases hzst with ⟨h, -⟩ | ⟨-, h⟩ | ⟨-, h⟩ <;>
            simp_all
        · rw [openTransfers_of_transferOf hsound' hy', if_neg hclosed]
        · simp [hbefore]
        · simp [hbefore, hunsent]

end

/-! ## Histories that end with a chargeback -/

/-- The session that commits a chargeback, with the deposit it has found and its transfer. -/
def endOfChargeback (x : Transition signature) :
    Option (Session signature × SBPChargebackWebhook × Transaction × BingxTransfer) :=
  match x.action with
  | .run i => (x.before.sessions.find? i).bind fun s =>
    match s.job, s.prog, s.txn.snapshots[0]? with
    | .sbpChargebackWebhook p, .done _, some q =>
      if (q.db.transactions.find? p.transactionId).isSome then
        (x.before.shared.db.transactions.find? p.transactionId).bind fun t =>
          (x.before.shared.db.transferOf p.transactionId).map fun y => (s, p, t, y)
      else none
    | _, _, _ => none
  | _ => none

/-- What is known when a chargeback commits that has found its deposit. -/
structure CommitsChargeback (x : Transition signature) (s : Session signature)
    (p : SBPChargebackWebhook) (t : Transaction) (y : BingxTransfer) : Prop where
  commits : ∃ v, x.Commits s v
  job : s.job = .sbpChargebackWebhook p
  found : ∀ q, s.txn.snapshots[0]? = some q → q.db.transactions.find? p.transactionId ≠ none
  row : x.before.shared.db.transactions.find? p.transactionId = some t
  transfer : x.before.shared.db.transferOf p.transactionId = some y

theorem commitsChargeback_of_eq {x : Transition signature} {s : Session signature}
    {p : SBPChargebackWebhook} {t : Transaction} {y : BingxTransfer}
    (h : endOfChargeback x = some (s, p, t, y)) : CommitsChargeback x s p t y := by
  unfold endOfChargeback at h
  split at h
  · next i ha =>
    obtain ⟨s', hs, h₁⟩ := Option.bind_eq_some_iff.mp h
    obtain rfl := Table.key_of_find? hs
    split at h₁
    · next p' v q hjob hprog hq =>
      split at h₁
      · next hfound =>
        obtain ⟨t', ht, h₂⟩ := Option.bind_eq_some_iff.mp h₁
        obtain ⟨y', hy, he⟩ := Option.map_eq_some_iff.mp h₂
        cases he
        refine ⟨⟨v, hs, ha, hprog⟩, hjob, fun q' hq' hnone => ?_, ht, hy⟩
        rw [hq] at hq'
        cases hq'
        rw [hnone] at hfound
        cases hfound
      · cases h₁
    · cases h₁
  · cases h

/-- Actions that all run and end with the commit of a chargeback. -/
theorem exists_commitsChargeback (as : List (Action signature)) {β : Type}
    (f : Session signature → SBPChargebackWebhook → Transaction → BingxTransfer →
      World signature → β) {b : β}
    (h : ((World.idle launch).trace (bank .ascii) [] as).map (fun r =>
      (r.1.head?.bind endOfChargeback).map fun e => f e.1 e.2.1 e.2.2.1 e.2.2.2 r.2) =
        some (some b)) :
    ∃ late early x w s p t y, Run (bank .ascii) launch (late ++ x :: early) w ∧
      (late ++ x :: early).map Transition.action = as.reverse ∧ w = x.after ∧
      CommitsChargeback x s p t y ∧ f s p t y w = b := by
  obtain ⟨tr, w, hr, hactions, hb⟩ := Run.exists_of_trace (bank .ascii) launch as _ h
  obtain ⟨⟨s, p, t, y⟩, he, hb⟩ := Option.map_eq_some_iff.mp hb
  obtain ⟨x, hx, he⟩ := Option.bind_eq_some_iff.mp he
  obtain ⟨early, rfl⟩ := List.head?_eq_some_iff.mp hx
  have hw : w = x.after := by
    cases hr
    rfl
  exact ⟨[], early, x, w, s, p, t, y, hr, hactions, hw, commitsChargeback_of_eq he, hb⟩

/-- A deposit with a transfer has been paid. -/
theorem CommitsChargeback.ends {start : Shared signature} {unicode : Unicode}
    {x : Transition signature} {late early : List (Transition signature)} {w : World signature}
    {s : Session signature} {p : SBPChargebackWebhook} {t : Transaction} {y : BingxTransfer}
    (hs : Opening start) (hr : Run (bank unicode) start (late ++ x :: early) w)
    (hj : Contract.Starts Job.Together (late ++ x :: early)) (h : CommitsChargeback x s p t y)
    (hne : t.status ≠ .chargeback) : EndsChargeback early x s p t := by
  obtain ⟨⟨v, hfind, hact, hprog⟩, hjob, hfound, hrow, htr⟩ := h
  obtain ⟨hearly, -⟩ := hr.cut
  obtain ⟨hy, hid⟩ := (Database.transferOf_eq_some (run_inv hs hearly).sound).mp htr
  rw [← hid] at hrow
  have hpaid := exists_paidBy hs hearly (fun z hz => hj z (by simp [hz])) hy hrow
  rw [hid] at hrow
  exact ⟨⟨hfind, hact, .inl ⟨v, hprog⟩⟩, hjob, hfound, hrow, hpaid, hne⟩

/-- The paid deposit is charged back before its payout is sent. -/
def disputedDeposit : List (Action signature) :=
  paidDeposit ++ disputeDeposit 0 ++ blacklistDeposit 0 ++ [commit 0]

/-- The payout of the paid deposit fails, as there is no such recipient; then comes the
chargeback. -/
def disputedAfterFailure : List (Action signature) :=
  paidDeposit ++ sendPayout 0 ++ recordAnswer 0 (refusal "recipient not found") 5 ++
    commit 0 :: .start 0 (.sbpChargebackWebhook aliceChargeback) :: runs 0 3 ++ [commit 0]

/-- The payout of the paid deposit is on hold when the chargeback comes. -/
def disputedOnHold : List (Action signature) :=
  heldDeposit ++ disputeDeposit 0 ++ blacklistDeposit 0 ++ [commit 0]

theorem chargeback_recorded_iff_paid : ∃ tr w x s p t, Run (bank .ascii) launch tr w ∧ x ∈ tr ∧
    s.job = .sbpChargebackWebhook p ∧ t.status = .paid ∧ ChargebackRecorded x s t := by
  obtain ⟨late, early, x, w, s, p, t, y, hr, hactions, -, hc, hb⟩ :=
    exists_commitsChargeback disputedDeposit (fun _ p t _ _ => (p.reason, t.status))
      (b := ("chargeback", .paid)) (by decide)
  obtain ⟨hreason, hst⟩ := Prod.mk.inj hb
  have hj : Contract.Starts Job.Together (late ++ x :: early) :=
    Contract.Starts.of_actions hactions (by decide)
  have hend := hc.ends opening_launch hr hj (by simp [hst])
  have hrec := (chargeback_recorded_iff opening_launch hr hj hend).mpr
    ⟨by simp [hst], by rw [hreason]; decide⟩
  exact ⟨_, w, x, s, p, t, hr, by simp, hc.job, hst, hrec⟩

/-- The chargeback of a deposit that has been paid is dropped if its payout has failed. -/
theorem not_chargeback_recorded : ¬ ∀ (unicode : Unicode) (start : Shared signature)
    (late early : List (Transition signature)) (x : Transition signature) (w : World signature)
    (s : Session signature) (p : SBPChargebackWebhook) (t : Transaction), Opening start →
    Run (bank unicode) start (late ++ x :: early) w →
    Contract.Starts Job.Together (late ++ x :: early) → EndsChargeback early x s p t →
    ChargebackRecorded x s t := by
  intro h
  obtain ⟨late, early, x, w, s, p, t, y, hr, hactions, -, hc, hst⟩ :=
    exists_commitsChargeback disputedAfterFailure (fun _ _ t _ _ => t.status) (b := .failed)
      (by decide)
  have hj : Contract.Starts Job.Together (late ++ x :: early) :=
    Contract.Starts.of_actions hactions (by decide)
  have hend := hc.ends opening_launch hr hj (by simp [hst])
  have hrec := h .ascii launch late early x w s p t opening_launch hr hj hend
  exact (hrec.eligible opening_launch hr hj hend).1 hst

theorem chargeback_stops_payout_iff_paid : ∃ tr w x id, Run (bank .ascii) launch tr w ∧ x ∈ tr ∧
    (∃ y, x.before.shared.db.transferOf id = some y ∧ y.status = .pending) ∧
    PayoutStopped x id := by
  obtain ⟨late, early, x, w, s, p, t, y, hr, hactions, -, ⟨⟨v, hc⟩, hjob, hfound, hrow, htr⟩, hb⟩ :=
    exists_commitsChargeback disputedDeposit
      (fun s p t y _ => (t.status, y.status, decide (HeldOnRead s.txn p.transactionId)))
      (b := (.paid, .pending, false)) (by decide)
  obtain ⟨hpaid, hb⟩ := Prod.mk.inj hb
  obtain ⟨hpending, hheld⟩ := Prod.mk.inj hb
  have hj : Contract.Starts Job.Together (late ++ x :: early) :=
    Contract.Starts.of_actions hactions (by decide)
  have helig : t.status ∈ chargebackEligibleStatuses := by
    rw [hpaid]
    exact List.mem_cons_self
  have hstopped := (chargeback_stops_payout_iff opening_launch hr hj hc hjob hfound hrow helig).mpr
    (of_decide_eq_false hheld)
  exact ⟨_, w, x, _, hr, by simp, ⟨y, htr, hpending⟩, hstopped⟩

/-- A payout that is on hold is left on hold by a chargeback. -/
theorem not_chargeback_stops_payout : ¬ ∀ (unicode : Unicode) (start : Shared signature)
    (late early : List (Transition signature)) (x : Transition signature) (w : World signature)
    (s : Session signature) (v : Result) (p : SBPChargebackWebhook) (t : Transaction),
    Opening start → Run (bank unicode) start (late ++ x :: early) w →
    Contract.Starts Job.Together (late ++ x :: early) → x.Commits s v →
    s.job = .sbpChargebackWebhook p →
    (∀ q, s.txn.snapshots[0]? = some q → q.db.transactions.find? p.transactionId ≠ none) →
    x.before.shared.db.transactions.find? p.transactionId = some t →
    t.status ∈ chargebackEligibleStatuses → PayoutStopped x p.transactionId := by
  intro h
  obtain ⟨late, early, x, w, s, p, t, y, hr, hactions, hw, ⟨⟨v, hc⟩, hjob, hfound, hrow, -⟩, hb⟩ :=
    exists_commitsChargeback disputedOnHold
      (fun _ p t _ w => (t.status, (openTransfers w.shared.db p.transactionId).length))
      (b := (.paid, 1)) (by decide)
  obtain ⟨hpaid, hopen⟩ := Prod.mk.inj hb
  have hj : Contract.Starts Job.Together (late ++ x :: early) :=
    Contract.Starts.of_actions hactions (by decide)
  have helig : t.status ∈ chargebackEligibleStatuses := by
    rw [hpaid]
    exact List.mem_cons_self
  have hstopped := h .ascii launch late early x w s v p t opening_launch hr hj hc hjob hfound
    hrow helig
  rw [hw, hstopped.none_open] at hopen
  cases hopen

end MoneyWay
