import MoneyWay.Library.ReadCommitted.Reads
import MoneyWay.Logs

/-!
# What a dossier shows

`GET /admin/transactions/…/dossier` reads five tables by five statements, and other sessions may
commit between any two of them. What it shows is complete all the same: a deposit that is shown as
paid, or as what comes after, is shown with its KYC record and its payout, and with the entry of
the audit log for the status that is shown, unless 200 earlier entries are. Every part is about
this deposit, but the parts may be of different times.

## Main definitions

- `Shows` — the dossier was put together from these states
- `Complete` — what is shown belongs together

## Main results

- `dossier_complete` — in every history
-/

set_option autoImplicit false

namespace MoneyWay

open Keyed ReadCommitted Python Prog Sql

/-! ## The code -/

/-- The parts of a dossier come from these five states, the first one first. -/
structure Shows (d : TransactionDossier) (id : String) (q₁ q₂ q₃ q₄ q₅ : Database) : Prop where
  transaction : q₁.transactions.find? id = some d.transaction
  email : ∃ u, q₁.users.find? d.transaction.userId = some u ∧ d.email = u.email
  kyc : d.kyc = q₂.kycRecords.find? id
  transfer : d.transfer = q₃.transferOf id
  fraudAlerts : d.fraudAlerts =
    earliest FraudAlert.createdAt (q₄.fraudAlerts.filter fun a => a.transactionId = some id)
  audit : d.audit =
    earliest AuditEntry.createdAt (q₅.auditLog.filter fun e => e.transactionId = some id)

/-- What a dossier has been read from, and what has been written down about it. -/
def DossierRead (adminId id : String) (v : Result) (x : Txn signature) : Prop :=
  ∃ d q₁ q₂ q₃ q₄ q₅ q₆ now, v = .dossier d ∧ x.snapshots = [q₁, q₂, q₃, q₄, q₅, q₆] ∧
    Shows d id q₁.db q₂.db q₃.db q₄.db q₅.db ∧
    x.pending = [.audit (auditEntry .dossierViewed (some adminId) (some id) [] none none none now)]

/-- A statement that only reads. -/
theorem ends_read {β : Type} {f : Database → β} {Q : β → Txn signature → Prop} {x : Txn signature}
    (h : ∀ s, Q (f (replay x.pending s.db)) (x.executed s { value := f (replay x.pending s.db) })) :
    (exec fun _ d => .ok { value := f d } : Handler β).Ends Q (fun _ _ => True) x := by
  refine .exec (fun _ _ _ _ => True.intro) fun s blocked eff hq => ?_
  obtain rfl := Except.ok.inj hq
  exact h s

theorem ends_transactionDossier (adminId id : String) :
    (transactionDossier adminId id).Ends (fun d => DossierRead adminId id (.dossier d))
      (fun _ _ => True) {} := by
  refine .bind (.bind (ends_read fun q₁ => ?_))
  split
  · exact True.intro
  · next t email hfound =>
    refine .bind (ends_read fun q₂ => .bind (ends_read fun q₃ => .bind (ends_read fun q₄ =>
      .bind (ends_read fun q₅ => ?_))))
    refine .bind (.now fun now => .exec (fun _ _ _ _ => True.intro) fun q₆ blocked eff hq => ?_)
    obtain rfl := insertAuditLog_ok hq
    obtain ⟨t', ht, hemail⟩ := Option.bind_eq_some_iff.mp hfound
    obtain ⟨u, hu, he⟩ := Option.map_eq_some_iff.mp hemail
    cases he
    exact ⟨_, q₁, q₂, q₃, q₄, q₅, q₆, now, rfl, rfl, ⟨ht, ⟨u, hu, rfl⟩, rfl, rfl, rfl, rfl⟩, rfl⟩

/-- What a job ends with, as far as dossiers go. -/
def EndsDossier (j : Job) (v : Result) (x : Txn signature) : Prop :=
  ∀ adminId id, j = .transactionDossier adminId id → DossierRead adminId id v x

theorem ends_other {j : Job} (h : ∀ adminId id, j ≠ .transactionDossier adminId id)
    (p : Handler Result) : p.Ends (EndsDossier j) (fun _ _ => True) {} :=
  .of_forall p (fun _ _ adminId id he => absurd he (h adminId id)) (fun _ _ => True.intro) {}

theorem ends_program (unicode : Unicode) (j : Job) :
    (program unicode j).Ends (EndsDossier j) (fun _ _ => True) {} := by
  cases j with
  | transactionDossier adminId id =>
    refine .bind ((ends_transactionDossier adminId id).mono (fun d x h => ?_) fun _ _ h => h)
    intro adminId' id' he
    cases he
    exact h
  | _ => exact ends_other (fun _ _ he => by cases he) _

/-! ## The states it was read from -/

/-- What one state says of a later one: rows stay, and the logs are appended to. -/
structure ReadBefore (s s' : Shared signature) : Prop where
  persists : Persists s.db s'.db
  alerts : s.db.fraudAlerts <+: s'.db.fraudAlerts
  entries : s.db.auditLog <+: s'.db.auditLog

theorem ReadBefore.trans {s t u : Shared signature} (h : ReadBefore s t) (h' : ReadBefore t u) :
    ReadBefore s u :=
  ⟨h.persists.trans h'.persists, h.alerts.trans h'.alerts, h.entries.trans h'.entries⟩

section

variable {unicode : Unicode} {start : Shared signature} {tr : List (Transition signature)}
  {w : World signature}

theorem readBefore_of_transition (hs : Opening start) (hr : Run (bank unicode) start tr w)
    (hj : Contract.Starts Job.Together tr) {x : Transition signature} (hx : x ∈ tr) :
    ReadBefore x.before.shared x.after.shared := by
  have hevolves := run_evolves hs hr hx
  obtain ⟨early, -, hsub, hearly, hstep⟩ := hr.cut_of_mem hx
  have hsafe := (together_valid unicode).run hs.inv hearly fun y hy => hj y (hsub y hy)
  rcases (hsafe.change hstep).together fun _ hj => hj with ⟨-, he⟩ | ⟨s, v, -, -, -, -, he⟩
  · exact ⟨hevolves.persists, by rw [he], by rw [he]⟩
  · refine ⟨hevolves.persists, ?_, ?_⟩
    · rw [he]
      exact ⟨_, (Database.fraudAlerts_replay _).symm⟩
    · rw [he]
      exact ⟨_, (Database.auditLog_replay _).symm⟩

/-- Each state a history goes through is one of the tables and the logs agreeing. -/
theorem state_of_history (hs : Opening start) (hlogs : Unlogged start.db)
    (hr : Run (bank unicode) start tr w) (hj : Contract.Starts Job.Together tr) :
    ∀ q ∈ states tr, Inv q ∧ Agreed q ∧ LogsAgree q.db := by
  intro q hq
  obtain ⟨x, hx, rfl⟩ := mem_states.mp hq
  obtain ⟨early, -, hsub, hearly, -⟩ := hr.cut_of_mem hx
  have hj' : Contract.Starts Job.Together early := fun y hy => hj y (hsub y hy)
  exact ⟨run_inv hs hearly, fun id f hf => (run_agrees hs hearly hj' id f hf).mono fun _ => trivial,
    run_logsAgree hs hlogs hearly hj'⟩

end

/-! ## What is shown -/

/-- The rows of a log that are shown are all of them, or 200. -/
theorem mem_earliest {α : Type} (createdAt : α → Timestamp) {rows : List α} {a : α}
    (h : a ∈ rows) : a ∈ earliest createdAt rows ∨ (earliest createdAt rows).length = 200 := by
  unfold earliest
  by_cases hlen : rows.length ≤ 200
  · left
    rw [List.take_of_length_le (by rwa [List.length_mergeSort])]
    exact (List.mergeSort_perm _ _).mem_iff.mpr h
  · right
    rw [List.length_take, List.length_mergeSort]
    omega

/-- Only rows of the log are shown. -/
theorem mem_of_mem_earliest {α : Type} {createdAt : α → Timestamp} {rows : List α} {a : α}
    (h : a ∈ earliest createdAt rows) : a ∈ rows :=
  (List.mergeSort_perm _ _).mem_iff.mp (List.mem_of_mem_take h)

/-- Everything the dossier shows is about this deposit, and it is complete for the status it
shows; of either log no more than 200 rows are shown. -/
structure Complete (db : Database) (id : String) (d : TransactionDossier) : Prop where
  transaction : d.transaction.id = id
  email : ∃ u, db.users.find? d.transaction.userId = some u ∧ d.email = u.email
  kyc : ∀ k, d.kyc = some k → k.transactionId = id ∧ k.amountRub = d.transaction.amountRub
  transfer : ∀ y, d.transfer = some y → y.transactionId = id ∧ y.Pays d.transaction
  fraudAlerts : ∀ a ∈ d.fraudAlerts, a.transactionId = some id
  audit : ∀ e ∈ d.audit, e.transactionId = some id
  paid : d.transaction.status ≠ .pending → d.transaction.status ≠ .failed →
    ∃ k y, d.kyc = some k ∧ d.transfer = some y
  recorded : (∃ e ∈ d.audit, e.eventType.status? = some d.transaction.status) ∨
    d.audit.length = 200
  charged : d.transaction.status = .chargeback →
    (∃ a ∈ d.fraudAlerts, a.alertType = .chargeback) ∨ d.fraudAlerts.length = 200

/-- A deposit that has been paid for has its payout and its KYC record in every later state. -/
theorem file_of_paid {q q' : Shared signature} {id : String} {t : Transaction} (hq : Agreed q)
    (hi : Inv q) (hi' : Inv q') (hq' : Agreed q') (h : Persists q.db q'.db)
    (ht : q.db.transactions.find? id = some t) (hpending : t.status ≠ .pending)
    (hfailed : t.status ≠ .failed) :
    ∃ y k, q'.db.transferOf id = some y ∧ q'.db.kycRecords.find? id = some k := by
  have hfile := Database.file_of_find? ht
  obtain ⟨y, hy⟩ : ∃ y, q.db.transferOf id = some y := by
    have hagrees := hq id _ hfile
    generalize q.db.transferOf id = m at hagrees ⊢
    generalize q.db.kycRecords.find? id = k at hagrees
    cases hagrees with
    | pending h => exact absurd h hpending
    | rejected h => exact absurd h hfailed
    | paid | completed | error | failed | charged | chargedHeld => exact ⟨_, rfl⟩
  obtain ⟨hmem, htid⟩ := (Database.transferOf_eq_some hi.sound).mp hy
  obtain ⟨y', hy', hsame⟩ := h.transfer y.id y (Table.find?_of_mem hmem)
  obtain ⟨t', ht', -⟩ := h.transaction id t ht
  obtain ⟨t₁, ht₁, -, hfile'⟩ := Database.file_of_transfer hi'.sound (Table.mem_of_find? hy')
  rw [hsame.transactionId, htid] at ht₁ hfile'
  obtain rfl := Option.some.inj (ht'.symm.trans ht₁)
  have hagrees := hq' id _ hfile'
  generalize hk : q'.db.kycRecords.find? id = k at hagrees
  obtain ⟨-, htransfer, -⟩ := Database.find?_of_file hfile'
  cases hagrees <;> exact ⟨_, _, htransfer, rfl⟩

/-- A KYC record that is read later is of the deposit as it was read. -/
theorem kyc_of_read {q q' : Shared signature} {id : String} {t : Transaction} {k : KycRecord}
    (hi' : Inv q') (h : Persists q.db q'.db) (ht : q.db.transactions.find? id = some t)
    (hk : q'.db.kycRecords.find? id = some k) :
    k.transactionId = id ∧ k.amountRub = t.amountRub := by
  have hkid : k.transactionId = id := Table.key_of_find? hk
  obtain ⟨t', ht', -, hamount⟩ := hi'.sound.kyc k (Table.mem_of_find? hk)
  obtain ⟨t₁, ht₁, hquote, -⟩ := h.transaction id t ht
  rw [hkid] at ht'
  obtain rfl := Option.some.inj (ht₁.symm.trans ht')
  exact ⟨hkid, hamount.trans hquote.amountRub⟩

/-- A payout that is read later pays the deposit as it was read. -/
theorem transfer_of_read {q q' : Shared signature} {id : String} {t : Transaction}
    {y : BingxTransfer} (hi' : Inv q') (h : Persists q.db q'.db)
    (ht : q.db.transactions.find? id = some t) (hy : q'.db.transferOf id = some y) :
    y.transactionId = id ∧ y.Pays t := by
  obtain ⟨hmem, htid⟩ := (Database.transferOf_eq_some hi'.sound).mp hy
  obtain ⟨t', ht', -, hpays⟩ := hi'.sound.owner y hmem
  obtain ⟨t₁, ht₁, hquote, -⟩ := h.transaction id t ht
  rw [htid] at ht'
  obtain rfl := Option.some.inj (ht₁.symm.trans ht')
  exact ⟨htid, hpays.recipientUid.trans hquote.bingxUid,
    hpays.amountUsdt.trans hquote.amountUsdt, by rw [hpays.idempotencyKey, hquote.id]⟩

/-- Parts that come from states one after the other make a complete dossier. -/
theorem Shows.complete {d : TransactionDossier} {id : String}
    {q₁ q₂ q₃ q₄ q₅ q : Shared signature} (h : Shows d id q₁.db q₂.db q₃.db q₄.db q₅.db)
    (hgood : ∀ q ∈ [q₁, q₂, q₃, q₄, q₅], Inv q ∧ Agreed q ∧ LogsAgree q.db)
    (h₂ : ReadBefore q₁ q₂) (h₃ : ReadBefore q₁ q₃) (h₄ : ReadBefore q₁ q₄)
    (h₅ : ReadBefore q₁ q₅) (hnow : ReadBefore q₁ q) : Complete q.db id d := by
  simp only [List.forall_mem_cons] at hgood
  obtain ⟨⟨hi₁, ha₁, hl₁⟩, ⟨hi₂, ha₂, -⟩, ⟨hi₃, ha₃, -⟩, -⟩ := hgood
  have hstatus : q₁.db.statusOf id = some d.transaction.status := by
    rw [Database.statusOf, h.transaction, Option.map_some]
  refine ⟨Table.key_of_find? h.transaction, hnow.persists.users ▸ h.email, fun k hk => ?_,
    fun y hy => ?_, fun a ha => ?_, fun e he => ?_, fun hpending hfailed => ?_, ?_,
    fun hcharged => ?_⟩
  · exact kyc_of_read hi₂ h₂.persists h.transaction (h.kyc.symm.trans hk)
  · exact transfer_of_read hi₃ h₃.persists h.transaction (h.transfer.symm.trans hy)
  · rw [h.fraudAlerts] at ha
    simpa using (List.mem_filter.mp (mem_of_mem_earliest ha)).2
  · rw [h.audit] at he
    simpa using (List.mem_filter.mp (mem_of_mem_earliest he)).2
  · obtain ⟨-, k, -, hk⟩ :=
      file_of_paid ha₁ hi₁ hi₂ ha₂ h₂.persists h.transaction hpending hfailed
    obtain ⟨y, -, hy, -⟩ :=
      file_of_paid ha₁ hi₁ hi₃ ha₃ h₃.persists h.transaction hpending hfailed
    exact ⟨k, y, h.kyc.trans hk, h.transfer.trans hy⟩
  · obtain ⟨e, he, hid, hst⟩ := hl₁.recorded id _ hstatus
    rw [h.audit]
    refine (mem_earliest _ ?_).imp (fun hmem => ⟨e, hmem, hst⟩) fun h => h
    exact List.mem_filter.mpr ⟨h₅.entries.subset he, by simpa using hid⟩
  · have hcount := hl₁.charged id
    rw [hstatus, hcharged, if_pos rfl] at hcount
    have hpos : 0 < alertCount .chargeback id q₁.db.fraudAlerts := hcount ▸ Nat.one_pos
    obtain ⟨a, ha, hmatch⟩ := List.countP_pos_iff.mp hpos
    obtain ⟨htype, hid⟩ : a.alertType = .chargeback ∧ a.transactionId = some id := by
      simpa using hmatch
    rw [h.fraudAlerts]
    refine (mem_earliest _ ?_).imp (fun hmem => ⟨a, hmem, htype⟩) fun h => h
    exact List.mem_filter.mpr ⟨h₄.alerts.subset ha, by simpa using hid⟩

/-! ## Every history -/

section

variable {unicode : Unicode} {start : Shared signature} {tr : List (Transition signature)}
  {w : World signature}

/-- A dossier that is answered is complete and all about its deposit, and it is on record who has
seen it. -/
theorem dossier_complete (hs : Opening start) (hlogs : Unlogged start.db)
    (hr : Run (bank unicode) start tr w) (hj : Contract.Starts Job.Together tr)
    {x : Transition signature} (hx : x ∈ tr) {s : Session signature} {v : Result}
    (hc : x.Commits s v) {adminId id : String} (hjob : s.job = .transactionDossier adminId id) :
    ∃ d, v = .dossier d ∧ Complete x.before.shared.db id d ∧ ∃ now,
      x.after.shared.db.auditLog = x.before.shared.db.auditLog ++
        [auditEntry .dossierViewed (some adminId) (some id) [] none none none now] := by
  have hauto : (bank unicode).autocommit s.job = false := by
    rw [hjob]
    rfl
  obtain ⟨d, q₁, q₂, q₃, q₄, q₅, q₆, now, hv, hsnapshots, hshows, hpending⟩ :=
    hr.ends_of_commits (fun j _ => ends_program unicode j) hx hc hauto adminId id hjob
  obtain ⟨-, -, hafter⟩ := (together_valid unicode).commits hs.inv hr hj hx hc hauto
  obtain ⟨early, -, hsub, hearly, -⟩ := hr.cut_of_mem hx
  have hj' : Contract.Starts Job.Together early := fun y hy => hj y (hsub y hy)
  have hread := hearly.snapshots_sublist s (Table.mem_of_find? hc.1)
  rw [hsnapshots] at hread
  have horder := (hearly.pairwise_states (R := ReadBefore) (fun _ _ _ => ReadBefore.trans)
    fun y hy => readBefore_of_transition hs hearly hj' hy).sublist
      (hread.append (List.Sublist.refl [x.before.shared]))
  obtain ⟨hfirst, -⟩ := List.pairwise_cons.mp horder
  refine ⟨d, hv, hshows.complete (fun q hq => ?_) (hfirst _ (by simp)) (hfirst _ (by simp))
    (hfirst _ (by simp)) (hfirst _ (by simp)) (hfirst _ (by simp)), now, ?_⟩
  · refine state_of_history hs hlogs hearly hj' q (hread.subset ?_)
    simp only [List.mem_cons, List.not_mem_nil, or_false] at hq ⊢
    tauto
  · rw [hafter, Database.auditLog_replay, hpending]
    rfl

end

/-- A dossier is read while the deposit is being charged back. -/
def readWhileDisputed : List (Action signature) :=
  paidDeposit ++ .start 5 (.transactionDossier "alice" "deposit") :: runs 5 1 ++
    disputeDeposit 0 ++ blacklistDeposit 0 ++ commit 0 :: runs 5 6 ++ [commit 5]

/-- The statuses of the deposit and of its payout in the dossier a session ends with. -/
def dossierStatuses (x : Transition signature) :
    Option (TransactionStatus × Option TransferStatus) :=
  x.commit?.bind fun s =>
    match s.job, s.prog with
    | .transactionDossier "alice" "deposit", .done (.dossier d) =>
      some (d.transaction.status, d.transfer.map (·.status))
    | _, _ => none

/-- The dossier shows a paid deposit with a cancelled payout, and is complete. -/
theorem dossier_complete_disputed : ∃ (q : Shared signature) (d : TransactionDossier),
    d.transaction.status = .paid ∧ d.transfer.map (·.status) = some .cancelled ∧
      Complete q.db "deposit" d := by
  obtain ⟨tr, w, hr, hactions, hw⟩ := Run.exists_of_trace (bank .ascii) launch readWhileDisputed
    (fun r => r.1.head?.bind dossierStatuses) (b := some (.paid, some .cancelled)) (by decide)
  obtain ⟨x, hx, hshown⟩ := Option.bind_eq_some_iff.mp hw
  have hmem := List.mem_of_mem_head? hx
  obtain ⟨s, hs, hd⟩ := Option.bind_eq_some_iff.mp hshown
  obtain ⟨v, hc⟩ := Transition.commits_of_commit? hs
  split at hd
  · next hjob hprog =>
    obtain ⟨d', hv, hcomplete, -⟩ := dossier_complete opening_launch unlogged_launch hr
      (Contract.Starts.of_actions hactions (by decide)) hmem hc hjob
    have hprog' := hprog.symm.trans hc.2.2
    rw [hv] at hprog'
    cases hprog'
    obtain ⟨hstatus, htransfer⟩ := Prod.mk.inj (Option.some.inj hd)
    exact ⟨_, _, hstatus, htransfer, hcomplete⟩
  · cases hd

end MoneyWay
