import MoneyWay.Histories

/-!
# Transactions, transfers and KYC records agree

When every job is one transaction, each status of a deposit says what its payout and its
KYC record are. This is kept by every commit, whichever states the commit's statements
have read, and holds in every history.
-/

set_option autoImplicit false

namespace MoneyWay

open Keyed ReadCommitted Python Sql

/-- What the status of a transaction says about the rest of its file. A charged back
deposit may have a transfer in one of the statuses `leftover` if its transfer was `held`. -/
inductive File.Agrees (leftover : List TransferStatus) (held : Prop) : File → Prop
  | pending {t : Transaction} : t.status = .pending → Agrees leftover held ⟨t, none, none⟩
  | paid {t : Transaction} {y : BingxTransfer} {k : KycRecord} : t.status = .paid →
      y.status = .pending ∨ y.status = .onHold → Agrees leftover held ⟨t, some y, some k⟩
  | completed {t : Transaction} {y : BingxTransfer} {k : KycRecord} : t.status = .completed →
      y.status = .completed → t.bingxTransferId = y.bingxTransferId →
      Agrees leftover held ⟨t, some y, some k⟩
  | error {t : Transaction} {y : BingxTransfer} {k : KycRecord} : t.status = .error →
      y.status = .error → Agrees leftover held ⟨t, some y, some k⟩
  | rejected {t : Transaction} : t.status = .failed → Agrees leftover held ⟨t, none, none⟩
  | failed {t : Transaction} {y : BingxTransfer} {k : KycRecord} : t.status = .failed →
      y.status = .failed → Agrees leftover held ⟨t, some y, some k⟩
  | charged {t : Transaction} {y : BingxTransfer} {k : KycRecord} : t.status = .chargeback →
      y.status ∈ [TransferStatus.cancelled, .completed, .error] →
      Agrees leftover held ⟨t, some y, some k⟩
  | chargedHeld {t : Transaction} {y : BingxTransfer} {k : KycRecord} :
      t.status = .chargeback → held → y.status ∈ leftover →
      Agrees leftover held ⟨t, some y, some k⟩

/-- The three tables agree; `held id` says that the transfer of `id` was on hold when the
chargeback came. -/
structure Coherent (leftover : List TransferStatus) (held : String → Prop) (d : Database) :
    Prop where
  files : ∀ id f, d.file id = some f → f.Agrees leftover (held id)
  single : ∀ y ∈ d.bingxTransfers.rows, ∀ z ∈ d.bingxTransfers.rows,
    y.transactionId = z.transactionId → y = z
  owner : ∀ y ∈ d.bingxTransfers.rows, ∃ t, d.transactions.find? y.transactionId = some t ∧
    y.recipientUid = t.bingxUid ∧ y.amountUsdt = t.amountUsdt
  kyc : ∀ k ∈ d.kycRecords.rows, ∃ t, d.transactions.find? k.transactionId = some t ∧
    k.amountRub = t.amountRub
  idle : ∀ y ∈ d.bingxTransfers.rows, y.status ≠ .processing

/-- The statuses a transfer can go on to when a chargeback has found it on hold. -/
def heldStatuses : List TransferStatus := [.onHold, .pending, .failed]

namespace File.Agrees

variable {held held' : Prop} {t : Transaction} {y : BingxTransfer} {k : Option KycRecord}

theorem mono (hmono : held → held') {f : File} (h : f.Agrees heldStatuses held) :
    f.Agrees heldStatuses held' := by
  cases h with
  | pending ht => exact .pending ht
  | paid ht hy => exact .paid ht hy
  | completed ht hy hid => exact .completed ht hy hid
  | error ht hy => exact .error ht hy
  | rejected ht => exact .rejected ht
  | failed ht hy => exact .failed ht hy
  | charged ht hy => exact .charged ht hy
  | chargedHeld ht hh hy => exact .chargedHeld ht (hmono hh) hy

theorem ne_processing (h : Agrees heldStatuses held ⟨t, some y, k⟩) : y.status ≠ .processing := by
  intro hy
  cases h with
  | paid _ h => simp [hy] at h
  | completed _ h => simp [hy] at h
  | error _ h => simp [hy] at h
  | failed _ h => simp [hy] at h
  | charged _ h => simp [hy] at h
  | chargedHeld _ _ h => simp [hy, heldStatuses] at h

/-- Only a paid deposit, or one charged back while it was held, has an open payout. -/
theorem of_open (h : Agrees heldStatuses held ⟨t, some y, k⟩)
    (hy : y.status = .pending ∨ y.status = .onHold) :
    (∃ k', k = some k') ∧ (t.status = .paid ∨ t.status = .chargeback ∧ held) := by
  cases h with
  | paid ht _ => exact ⟨⟨_, rfl⟩, .inl ht⟩
  | completed _ h => simp [h] at hy
  | error _ h => simp [h] at hy
  | failed _ h => simp [h] at hy
  | charged _ h => rcases hy with hy | hy <;> simp [hy] at h
  | chargedHeld ht hh _ => exact ⟨⟨_, rfl⟩, .inr ⟨ht, hh⟩⟩

/-- A deposit that can be charged back has a transfer and a KYC record. -/
theorem of_eligible {m : Option BingxTransfer} (h : Agrees heldStatuses held ⟨t, m, k⟩)
    (ht : t.status ∈ chargebackEligibleStatuses) :
    ∃ y k', m = some y ∧ k = some k' ∧
      (t.status = .paid ∧ (y.status = .pending ∨ y.status = .onHold) ∨
        t.status = .completed ∧ y.status = .completed ∨
        t.status = .error ∧ y.status = .error) := by
  cases h with
  | pending h => simp [h, chargebackEligibleStatuses] at ht
  | paid h hy => exact ⟨_, _, rfl, rfl, .inl ⟨h, hy⟩⟩
  | completed h hy => exact ⟨_, _, rfl, rfl, .inr (.inl ⟨h, hy⟩)⟩
  | error h hy => exact ⟨_, _, rfl, rfl, .inr (.inr ⟨h, hy⟩)⟩
  | rejected h => simp [h, chargebackEligibleStatuses] at ht
  | failed h => simp [h, chargebackEligibleStatuses] at ht
  | charged h => simp [h, chargebackEligibleStatuses] at ht
  | chargedHeld h => simp [h, chargebackEligibleStatuses] at ht

end File.Agrees

/-- The state-only part: `held` is not asked for. -/
def Agreed (s : Shared signature) : Prop :=
  ∀ id f, s.db.file id = some f → f.Agrees heldStatuses True

/-- What is known of the states a transaction has read. -/
def Seen (x : Txn signature) (s : Shared signature) : Prop :=
  ∀ q ∈ x.snapshots, Inv q ∧ Agreed q ∧ Persists q.db s.db

/-- The chargeback's `UPDATE` of the transfers has found the one of the deposit on hold. -/
def HeldOnRead (x : Txn signature) (id : String) : Prop :=
  ∃ q, x.snapshots[2]? = some q ∧ ∃ y ∈ q.db.bingxTransfers.rows, y.transactionId = id ∧
    y.status = .onHold

instance (x : Txn signature) (id : String) : Decidable (HeldOnRead x id) :=
  decidable_of_iff (x.snapshots[2]?.any (fun q => q.db.bingxTransfers.rows.any fun y =>
    decide (y.transactionId = id ∧ y.status = .onHold)) = true)
    (by simp [HeldOnRead, Option.any_eq_true])

section Step

variable {unicode : Unicode} {x : Txn signature} {s : Shared signature} {id : String}
  {held held' : Prop}

/-- A claimed transfer is pending: no committed one is processing. -/
theorem Claimed.pending {settings : WorkerSettings} {y : BingxTransfer} {now : Timestamp}
    (h : Claimed x s settings y now) {t : Transaction} {k : Option KycRecord}
    (hf : File.Agrees heldStatuses held ⟨t, some y, k⟩) : y.status = .pending := by
  obtain ⟨q, -, -, hclaim⟩ := h.claimed
  exact (status_of_claimable hclaim).resolve_right hf.ne_processing

/-- What the worker leaves of a file. -/
theorem agrees_recorded {settings : WorkerSettings} {y y' : BingxTransfer} {now : Timestamp}
    {route : Route} {set : Option (Transaction → Transaction)} {t t' : Transaction}
    {k : Option KycRecord} (hseen : Seen x s)
    (ht : s.db.transactions.find? y.transactionId = some t)
    (hclaimed : Claimed x s settings y now) (hset : Settled y now route y' set)
    (hupdated : Updated x y t set t') (hf : File.Agrees heldStatuses held ⟨t, some y, k⟩) :
    File.Agrees heldStatuses held ⟨t', some y', k⟩ := by
  have hpending := hclaimed.pending hf
  obtain ⟨⟨k, rfl⟩, hst⟩ := hf.of_open (.inl hpending)
  cases hupdated with
  | none =>
    -- held or retried: the transaction is not touched
    have hy : y'.status = .pending ∨ y'.status = .onHold := by
      cases hset with
      | held => exact .inr rfl
      | retried => exact .inl rfl
    rcases hst with hst | ⟨hst, hh⟩
    · exact .paid hst hy
    · refine .chargedHeld hst hh ?_
      rcases hy with hy | hy <;> simp [hy, heldStatuses]
  | paid hpaid =>
    cases hset with
    | completed => exact .completed rfl rfl rfl
    | failed => exact .failed rfl rfl
    | escalated => exact .error rfl rfl
  | @skipped set q t₀ hq hy ht₀ hne =>
    -- a pending transfer of a deposit that is not paid: it was charged back
    obtain ⟨hinv, hagreed, hpers⟩ := hseen q hq
    obtain ⟨u, hu, -, hfile⟩ := Database.file_of_transfer hinv.sound (Table.mem_of_find? hy)
    have hcharged : t₀.status = .chargeback := by
      rw [ht₀] at hu
      cases hu
      rcases ((hagreed _ _ hfile).of_open (.inl hpending)).2 with h | h
      · exact absurd h hne
      · exact h.1
    obtain ⟨t₁, ht₁, hstay⟩ := hpers.absorbing ht₀ (.inr hcharged)
    rw [ht] at ht₁
    cases ht₁
    rw [hcharged] at hstay
    have hh : held := by
      rcases hst with h | h
      · rw [hstay] at h
        cases h
      · exact h.2
    cases hset with
    | completed => exact .charged hstay (by simp [BingxTransfer.complete])
    | failed => exact .chargedHeld hstay hh (by simp [BingxTransfer.settle, heldStatuses])
    | escalated => exact .charged hstay (by simp [BingxTransfer.settle])

/-- The step lemma: a commit keeps a file in agreement. The transfer a chargeback found on
hold is remembered in `held'`. -/
theorem FileStep.agrees {j : Job} {v : Result} {f f' : Option File}
    (hseen : Seen x s) (hmono : held → held')
    (hheld : ∀ p, j = .sbpChargebackWebhook p → p.transactionId = id →
      HeldOnRead x id → held')
    (hstep : FileStep unicode x s id j v f f') (hfile : s.db.file id = f)
    (hf : ∀ g ∈ f, File.Agrees heldStatuses held g) :
    ∀ g ∈ f', File.Agrees heldStatuses held' g := by
  rintro g hg
  cases hstep with
  | kept => exact (hf g hg).mono hmono
  | created _ hstored =>
    cases hg
    exact .pending hstored.status
  | rejected =>
    cases hg
    exact .rejected rfl
  | paid =>
    cases hg
    exact .paid rfl (.inl rfl)
  | cancelled _ ht =>
    cases hg
    obtain ⟨y, k, hy, rfl, -⟩ := (hf _ rfl).of_eligible ht
    exact .charged rfl (by simp [BingxTransfer.cancel])
  | disputed hid ht hq hread hleft =>
    cases hg
    obtain ⟨hinv, hagreed, -⟩ := hseen _ (List.mem_of_getElem? hq)
    obtain ⟨y, k, rfl, rfl, hy⟩ := (hf _ rfl).of_eligible ht
    obtain ⟨z, -, rfl, -, hz⟩ := (hagreed _ _ hread).of_eligible ht
    rcases hy with ⟨hpaid, hy⟩ | ⟨hdone, hy⟩ | ⟨herror, hy⟩
    · -- a paid deposit whose transfer was not unsent: it was on hold
      have hhold : z.status = .onHold := by
        obtain ⟨hnp, -⟩ := hleft z rfl
        rcases hz with ⟨-, hz⟩ | ⟨h, -⟩ | ⟨h, -⟩
        · exact hz.resolve_left hnp
        · rw [hpaid] at h
          cases h
        · rw [hpaid] at h
          cases h
      obtain ⟨-, htr, -⟩ := Database.find?_of_file hread
      obtain ⟨hmem, htid⟩ := (Database.transferOf_eq_some hinv.sound).mp htr
      refine .chargedHeld rfl (hheld _ rfl hid ⟨_, hq, z, hmem, htid, hhold⟩) ?_
      rcases hy with hy | hy <;> simp [hy, heldStatuses]
    · exact .charged rfl (by simp [hy])
    · exact .charged rfl (by simp [hy])
  | recorded htid hclaimed _ hset hupdated =>
    cases hg
    subst htid
    obtain ⟨ht, -, -⟩ := Database.find?_of_file hfile
    exact (agrees_recorded hseen ht hclaimed hset hupdated (hf _ rfl)).mono hmono
  | reset _ hst =>
    cases hg
    obtain ⟨⟨k, rfl⟩, ht⟩ := (hf _ rfl).of_open (.inr hst)
    rcases ht with ht | ⟨ht, hh⟩
    · exact .paid ht (.inl rfl)
    · exact .chargedHeld ht (hmono hh) (by simp [BingxTransfer.release, heldStatuses])

end Step

/-! ## Every history -/

/-- The contract `payments` with agreement in the invariant. -/
def agreeing (unicode : Unicode) : Contract signature :=
  { payments unicode with inv := fun s => Inv s ∧ Agreed s }

theorem agreeing_inv {unicode : Unicode} (s : Shared signature) (h : (agreeing unicode).inv s) :
    Inv s := h.1

theorem seen_of_past {unicode : Unicode} {x : Txn signature} {s : Shared signature}
    (h : (agreeing unicode).Past x s) : Seen x s := by
  intro q hq
  obtain ⟨⟨hinv, hagreed⟩, hleads⟩ := h q hq
  exact ⟨hinv, hagreed, hleads.lift (r := fun s s' => Persists s.db s'.db)
    (fun s => Persists.refl s.db) (fun _ _ _ => Persists.trans)
    fun _ _ (hg : Guar _ _) => hg.db.persists⟩

theorem agreeing_valid (unicode : Unicode) :
    (agreeing unicode).Valid (bank unicode) Job.Together := by
  refine (together_valid unicode).strengthen (fun _ h => h) (fun _ _ h => h)
    fun j v x s _ hs hagreed hpast ho id f hf => ?_
  have hseen := seen_of_past hpast
  have hstep := Outcome.fileStep hs (fun q hq => (hseen q hq).1) ho id
  have hold : ∀ g ∈ s.db.file id, File.Agrees heldStatuses True g := fun g hg => hagreed id g hg
  exact hstep.agrees hseen (fun _ => trivial) (fun _ _ _ _ => trivial) rfl hold f hf

/-- A chargeback for the deposit has committed that had found its transfer on hold. -/
def HeldWhenCharged (tr : List (Transition signature)) (id : String) : Prop :=
  ∃ x ∈ tr, ∃ s v p, x.Commits s v ∧ s.job = .sbpChargebackWebhook p ∧ p.transactionId = id ∧
    HeldOnRead s.txn id

section

variable {unicode : Unicode} {start : Shared signature} {tr : List (Transition signature)}
  {w : World signature}

theorem Opening.agreed (hs : Opening start) : Agreed start := by
  intro id f hf
  obtain ⟨ht, -⟩ := Database.find?_of_file hf
  have := Table.mem_of_find? ht
  simp [hs.transactions] at this

/-- The induction rule for the file of one deposit: what holds of no file and is kept by
every commit holds in the end. -/
theorem file_induction (hs : Opening start) (id : String)
    {motive : List (Transition signature) → Option File → Prop} (base : motive [] none)
    (silent : ∀ tr x f, (∀ s v, ¬ x.Commits s v) → motive tr f → motive (x :: tr) f)
    (commit : ∀ tr x s v f', Run (bank unicode) start tr x.before → Inv x.before.shared →
      x.Commits s v → Seen s.txn x.before.shared →
      FileStep unicode s.txn x.before.shared id s.job v (x.before.shared.db.file id) f' →
      x.after.shared.db.file id = f' → motive tr (x.before.shared.db.file id) →
      motive (x :: tr) f')
    (hr : Run (bank unicode) start tr w) (hj : Contract.Starts Job.Together tr) :
    motive tr (w.shared.db.file id) := by
  refine (agreeing_valid unicode).induction ⟨hs.inv, hs.agreed⟩
    (motive := fun tr w => motive tr (w.shared.db.file id)) ?_ ?_ hr hj
  · have hnone : (World.idle start).shared.db.file id = none := by
      rw [Database.file_eq_none, Table.find?_eq_none]
      simp [World.idle, hs.transactions]
    rw [hnone]
    exact base
  · intro tr w a w' hr hsafe _ hchange ih
    rcases file_change rfl agreeing_inv hsafe.inv hchange id with ⟨hne, he⟩ | hstep
    · rw [he]
      exact silent tr _ _ hne ih
    · obtain ⟨s, v, hc, -, hpast, hstep⟩ := hstep
      exact commit tr ⟨w, a, w'⟩ s v _ hr hsafe.inv.1 hc (seen_of_past hpast) hstep rfl ih

/-- What holds of a file, and not of a missing one, has been made so by a commit. -/
theorem exists_file_turn (hs : Opening start) (hr : Run (bank unicode) start tr w)
    (hj : Contract.Starts Job.Together tr) {id : String} {p : Option File → Prop}
    (hnone : ¬ p none) (hp : p (w.shared.db.file id)) :
    ∃ x ∈ tr, ∃ s v, x.Commits s v ∧
      FileStep unicode s.txn x.before.shared id s.job v (x.before.shared.db.file id)
        (x.after.shared.db.file id) ∧
      ¬ p (x.before.shared.db.file id) ∧ p (x.after.shared.db.file id) := by
  refine file_induction hs id (motive := fun tr f => p f → ∃ x ∈ tr, ∃ s v, x.Commits s v ∧
    FileStep unicode s.txn x.before.shared id s.job v (x.before.shared.db.file id)
      (x.after.shared.db.file id) ∧
    ¬ p (x.before.shared.db.file id) ∧ p (x.after.shared.db.file id)) ?_ ?_ ?_ hr hj hp
  · exact fun h => absurd h hnone
  · intro tr x f _ ih hf
    obtain ⟨y, hy, h⟩ := ih hf
    exact ⟨y, List.mem_cons_of_mem _ hy, h⟩
  · rintro tr x s v f' - - hc - hstep rfl ih hf
    by_cases hbefore : p (x.before.shared.db.file id)
    · obtain ⟨y, hy, h⟩ := ih hbefore
      exact ⟨y, List.mem_cons_of_mem _ hy, h⟩
    · exact ⟨x, List.mem_cons_self, s, v, hc, hstep, hbefore, hf⟩

/-- The run lemma: in every state reached, every file agrees. -/
theorem run_agrees (hs : Opening start) (hr : Run (bank unicode) start tr w)
    (hj : Contract.Starts Job.Together tr) :
    ∀ id f, w.shared.db.file id = some f → f.Agrees heldStatuses (HeldWhenCharged tr id) := by
  intro id
  have hmono : ∀ x tr, HeldWhenCharged tr id → HeldWhenCharged (x :: tr) id :=
    fun x tr ⟨y, hy, h⟩ => ⟨y, List.mem_cons_of_mem _ hy, h⟩
  refine file_induction hs id (motive := fun tr f => ∀ g, f = some g →
    g.Agrees heldStatuses (HeldWhenCharged tr id)) ?_ ?_ ?_ hr hj
  · intro g hg
    cases hg
  · intro tr x f _ ih g hg
    exact (ih g hg).mono (hmono x tr)
  · intro tr x s v f' _ _ hc hseen hstep _ ih
    refine hstep.agrees hseen (hmono x tr) ?_ rfl ih
    intro p hp hid hread
    exact ⟨x, List.mem_cons_self, s, v, p, hc, hp, hid, hread⟩

/-- Every committed state of every history of whole transactions is coherent. -/
theorem histories_coherent (hs : Opening start) (hr : Run (bank unicode) start tr w)
    (hj : Contract.Starts Job.Together tr) :
    Coherent [.onHold, .pending, .failed] (HeldWhenCharged tr) w.shared.db := by
  have hi := run_inv hs hr
  have hagrees := run_agrees hs hr hj
  refine ⟨hagrees, hi.sound.single, fun y hy => ?_, fun k hk => ?_, fun y hy => ?_⟩
  · obtain ⟨t, ht, -, hpays⟩ := hi.sound.owner y hy
    exact ⟨t, ht, hpays.recipientUid, hpays.amountUsdt⟩
  · obtain ⟨t, ht, -, hamount⟩ := hi.sound.kyc k hk
    exact ⟨t, ht, hamount⟩
  · obtain ⟨t, -, -, hfile⟩ := Database.file_of_transfer hi.sound hy
    exact (hagrees _ _ hfile).ne_processing

end

/-- A transfer on hold is reset while its deposit is being charged back; a worker pays it
out, there is no such recipient, and the chargeback commits before the worker does. -/
def releasedDuringChargeback : List (Action signature) :=
  heldDeposit ++ disputeDeposit 0 ++ resetPayout 1 ++ [commit 1] ++ sendPayout 2 ++
    recordAnswer 2 (refusal "recipient not found") 2 ++ blacklistDeposit 0 ++ [commit 0] ++
    runs 2 3 ++ [commit 2]

/-- The statuses in the file of the deposit. -/
def fileStatuses (w : World signature) : Option (TransactionStatus × Option TransferStatus) :=
  (w.shared.db.file "deposit").map fun f => (f.transaction.status, f.transfer.map (·.status))

theorem exists_releasedDuringChargeback : ∃ tr w, Run (bank .ascii) launch tr w ∧
    Contract.Starts Job.Together tr ∧ fileStatuses w = some (.chargeback, some .failed) := by
  obtain ⟨tr, w, hr, hactions, hw⟩ := Run.exists_of_trace (bank .ascii) launch
    releasedDuringChargeback (fun r => fileStatuses r.2) (b := some (.chargeback, some .failed))
    (by decide)
  refine ⟨tr, w, hr, Contract.Starts.of_actions hactions ?_, hw⟩
  decide

theorem histories_coherent_released : ∃ tr w, Run (bank .ascii) launch tr w ∧
    fileStatuses w = some (.chargeback, some .failed) ∧
    Coherent [.onHold, .pending, .failed] (HeldWhenCharged tr) w.shared.db := by
  obtain ⟨tr, w, hr, hj, hw⟩ := exists_releasedDuringChargeback
  exact ⟨tr, w, hr, hw, histories_coherent opening_launch hr hj⟩

/-- A charged back deposit can be left with a failed transfer. -/
theorem not_histories_coherent : ¬ ∀ (unicode : Unicode) (start : Shared signature)
    (tr : List (Transition signature)) (w : World signature), Opening start →
    Run (bank unicode) start tr w → Contract.Starts Job.Together tr →
    Coherent [.onHold, .pending] (HeldWhenCharged tr) w.shared.db := by
  intro h
  obtain ⟨tr, w, hr, hj, hw⟩ := exists_releasedDuringChargeback
  obtain ⟨f, hf, hst⟩ := Option.map_eq_some_iff.mp hw
  have hagrees := (h .ascii launch tr w opening_launch hr hj).files _ f hf
  obtain ⟨hcharged, hfailed⟩ := Prod.mk.inj hst
  cases hagrees with
  | charged _ hy => simp [Option.some.inj hfailed] at hy
  | chargedHeld _ _ hy => simp [Option.some.inj hfailed] at hy
  | _ => simp_all

end MoneyWay
