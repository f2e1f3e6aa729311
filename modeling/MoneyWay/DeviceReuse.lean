import MoneyWay.Histories
import MoneyWay.Library.ReadCommitted.Yields

/-!
# The same device at two accounts

A deposit looks for another user's transaction from the same device. It looks at the statuses
of that moment, so it finds a transaction that has been paid as long as it is paid or
completed; a transaction that has gone on to `error`, `failed` or `chargeback` is passed over.

## Main results

- `device_reuse_flagged` — a transaction that still is paid or completed is found
- `not_device_reuse_flagged` — one that has been charged back is not
-/

set_option autoImplicit false

namespace MoneyWay

open Keyed ReadCommitted Python Prog Sql

namespace TransactionStatus

/-- The statuses in which the antifraud check finds a transaction. -/
def Settled (s : TransactionStatus) : Prop := s = .paid ∨ s = .completed

instance : DecidablePred Settled :=
  fun s => inferInstanceAs (Decidable (s = .paid ∨ s = .completed))

/-- A transaction that has been paid and is not settled any more never will be. -/
def Unsettled (s : TransactionStatus) : Prop := s ≠ .pending ∧ ¬ s.Settled

theorem Move.unsettled {s s' : TransactionStatus} (h : Move s s') (hs : s.Unsettled) :
    s'.Unsettled := by
  cases h with
  | pay | reject => exact absurd rfl hs.1
  | complete | escalate | fail | disputePaid => exact absurd (.inl rfl) hs.2
  | disputeCompleted => exact absurd (.inr rfl) hs.2
  | disputeError => exact ⟨nofun, by rintro (h | h) <;> cases h⟩

end TransactionStatus

/-- The transaction is one that the check finds, for a deposit of this user from this device. -/
def FoundAs (fingerprint userId id : String) (d : Database) : Prop :=
  ∃ t, d.transactions.find? id = some t ∧ t.deviceFingerprint = some fingerprint ∧
    t.userId ≠ userId ∧ t.status.Settled

/-- The deposit has an alert for its device. -/
def Flagged (r : DepositCreateRequest) (transactionId : String) (a : FraudAlert) : Prop :=
  a.alertType = .deviceReuse ∧ a.transactionId = some transactionId ∧ a.userId = some r.user.id

/-- The transactions have moved on: what was not settled any more is not settled now. -/
def MovesOn (d d' : Database) : Prop :=
  ∀ id t, d.transactions.find? id = some t → ∃ t', d'.transactions.find? id = some t' ∧
    t.SameQuote t' ∧ (t.status ≠ .pending → t'.status ≠ .pending) ∧
    (t.status.Unsettled → t'.status.Unsettled)

theorem MovesOn.refl (d : Database) : MovesOn d d :=
  fun _ t ht => ⟨t, ht, .refl t, id, id⟩

theorem MovesOn.trans {d d' d'' : Database} (h : MovesOn d d') (h' : MovesOn d' d'') :
    MovesOn d d'' := by
  intro id t ht
  obtain ⟨t', ht', hquote, hpending, hunsettled⟩ := h id t ht
  obtain ⟨t'', ht'', hquote', hpending', hunsettled'⟩ := h' id t' ht'
  exact ⟨t'', ht'', hquote.trans hquote', fun hne => hpending' (hpending hne),
    fun hne => hunsettled' (hunsettled hne)⟩

theorem Evolves.movesOn {d d' : Database} (h : Evolves d d') : MovesOn d d' := by
  intro id t ht
  obtain ⟨t', ht', hmoves⟩ := h.transaction id t ht
  refine ⟨t', ht', hmoves.quote, hmoves.ne_pending, fun hne => ?_⟩
  cases hmoves.status with
  | inl he =>
    rw [he]
    exact hne
  | inr hmove => exact hmove.unsettled hne

/-! ## What the check does -/

section

variable {unicode : Unicode} {fingerprint userId id : String} {ws : List Write}

/-- The transaction is found as long as the session itself has not written it. -/
theorem FoundAs.of_replay {d : Database} (h : FoundAs fingerprint userId id d)
    (hother : ∀ t, .transaction t ∈ ws → t.id ≠ id) :
    FoundAs fingerprint userId id (replay ws d) := by
  obtain ⟨t, ht, hmatch⟩ := h
  have hrow : (replay ws d).transactions.find? id = d.transactions.find? id := by
    refine Database.row_transaction (Database.row_untouched fun w hw htarget => ?_)
    cases w with
    | transaction t' =>
      have hid : t'.id = id := by simpa using htarget
      exact hother t' hw hid
    | _ => cases htarget
  exact ⟨t, hrow.trans ht, hmatch⟩

theorem selectDeviceUser_found {d : Database} (h : FoundAs fingerprint userId id d)
    {locked : Row → LockMode → Bool} {eff : Effect Write Row (Option String)}
    (hq : selectDeviceUser fingerprint userId locked d = .ok eff) :
    ∃ other, eff = { value := some other } := by
  obtain ⟨t, ht, hmatch⟩ := h
  cases hq
  cases hfind : d.transactions.rows.find? fun t => decide (t.deviceFingerprint = some fingerprint ∧
      t.userId ≠ userId ∧ (t.status = .paid ∨ t.status = .completed)) with
  | some t' => exact ⟨t'.userId, rfl⟩
  | none =>
    have hno := List.find?_eq_none.mp hfind t (Table.mem_of_find? ht)
    exact absurd (decide_eq_true hmatch) hno

theorem yields_flagDeviceReuse {user : User} {transactionId : String}
    (hother : ∀ t, .transaction t ∈ ws → t.id ≠ id) :
    (flagDeviceReuse user transactionId fingerprint).Yields (FoundAs fingerprint user.id id)
      (fun _ ws' => ∃ other now,
        .fraudAlert (deviceReuseAlert user transactionId fingerprint other now) ∈ ws') ws := by
  refine .bind (.exec fun d hd locked eff hq => ?_)
  obtain ⟨other, rfl⟩ := selectDeviceUser_found (hd.of_replay hother) hq
  refine .now fun now => .exec fun d hd locked eff hq => ?_
  rw [insertFraudAlert_ok hq]
  exact ⟨other, now, List.mem_append_right _ (List.mem_singleton_self _)⟩

variable {settings : Settings} {r : DepositCreateRequest}

/-- What a deposit commits has an alert. -/
def FlaggedDeposit (r : DepositCreateRequest) (v : Result) (ws : List Write) : Prop :=
  ∃ d, v = .deposit d ∧ ∃ a, .fraudAlert a ∈ ws ∧ Flagged r d.transactionId a

theorem yields_recordDeposit {transactionId : String} {promoCodeId : Option String}
    {commission amountUsdt : Decimal} {now : Timestamp}
    (hf : r.deviceFingerprint = some fingerprint) (hne : fingerprint ≠ "")
    (hother : ∀ t, .transaction t ∉ ws) :
    (recordDeposit r transactionId promoCodeId commission amountUsdt now).Yields
      (FoundAs fingerprint r.user.id id)
      (fun d ws' => ∃ a, .fraudAlert a ∈ ws' ∧ Flagged r d.transactionId a) ws := by
  refine .bind (.exec fun d hd locked eff hq => ?_)
  obtain ⟨t, -, hnone, -, rfl⟩ := insertTransaction_ok hq
  -- the identifier is a new one, so it is not that of the transaction to be found
  have hnew : ∀ t', .transaction t' ∈ ws ++ [.transaction t] → t'.id ≠ id := by
    intro t' ht' he
    have ht' : t' = t := by simpa [hother t'] using ht'
    have hkept : ∀ t', .transaction t' ∈ ws → t'.id ≠ id := fun t' h' => absurd h' (hother t')
    obtain ⟨t₀, ht₀, -⟩ := hd.of_replay hkept
    rw [← ht', he, ht₀] at hnone
    cases hnone
  have hcheck : checkDevice r transactionId = flagDeviceReuse r.user transactionId fingerprint := by
    rw [checkDevice, hf, Option.filter_some, if_pos (decide_eq_true hne)]
  rw [hcheck]
  refine .bind ((yields_flagDeviceReuse hnew).mono fun _ ws' halert => ?_)
  obtain ⟨other, at', hmem⟩ := halert
  refine .bind (.of_extends fun _ ws'' hprefix => ?_)
  exact ⟨_, hprefix.subset hmem, rfl, rfl, rfl⟩

theorem yields_ensureNotBlacklisted {ipAddress : Option String} {email bingxUid : String}
    (hother : ∀ t, .transaction t ∉ ws) :
    (ensureNotBlacklisted unicode ipAddress email bingxUid).Yields
      (FoundAs fingerprint userId id) (fun _ ws' => ∀ t, .transaction t ∉ ws') ws := by
  refine .bind (.exec fun d _ locked eff hq => ?_)
  cases hq
  rw [List.append_nil]
  split
  · trivial
  · exact hother

theorem yields_applyPromoCode {promoCode : Option String} {now : Timestamp}
    (hother : ∀ t, .transaction t ∉ ws) :
    (applyPromoCode promoCode now).Yields (FoundAs fingerprint userId id)
      (fun _ ws' => ∀ t, .transaction t ∉ ws') ws := by
  cases promoCode with
  | none => exact hother
  | some code =>
    refine .bind (.exec fun d _ locked eff hq => ?_)
    cases updatePromoReserve_ok hq with
    | inl hnone =>
      rw [hnone]
      trivial
    | inr hreserved =>
      obtain ⟨p, -, -, -, -, rfl⟩ := hreserved
      intro t ht
      cases List.mem_append.mp ht with
      | inl hold => exact hother t hold
      | inr hnew => cases List.mem_singleton.mp hnew

/-- A deposit that finds the transaction whenever it looks has an alert. -/
theorem yields_createDeposit (hf : r.deviceFingerprint = some fingerprint)
    (hne : fingerprint ≠ "") :
    (program unicode (.createDeposit settings r)).Yields (FoundAs fingerprint r.user.id id)
      (FlaggedDeposit r) [] := by
  refine .bind (.now fun started => ?_)
  split
  · trivial
  refine .bind ((yields_ensureNotBlacklisted (by simp)).mono fun _ ws hnone => ?_)
  refine .bind ((yields_applyPromoCode hnone).mono fun promo ws hnone => ?_)
  refine .now fun now => .uuid fun transactionId => ?_
  split
  · trivial
  split
  · trivial
  refine (yields_recordDeposit hf hne hnone).mono fun d ws halert => ?_
  exact ⟨d, rfl, halert⟩

/-! ## In a history -/

variable {start : Shared signature} {late early : List (Transition signature)}
  {p : Transition signature} {w : World signature} {t t' : Transaction}

theorem movesOn_of_leads {s s' : Shared signature} (h : (payments unicode).Leads s s') :
    MovesOn s.db s'.db :=
  h.lift (r := fun s s' => MovesOn s.db s'.db) (fun s => .refl s.db) (fun _ _ _ => .trans)
    fun _ _ (hg : Guar _ _) => hg.db.movesOn

/-- A transaction that has been paid before the session was started and is settled now has
been settled whenever the session has read the database. -/
theorem foundAs_snapshots (hs : Opening start)
    (hr : Run (bank unicode) start (late ++ p :: early) w)
    (hpaid : p.after.shared.db.transactions.find? t.id = some t) (hst : t.status ≠ .pending)
    (hf : t.deviceFingerprint = some fingerprint) (huser : t.userId ≠ userId)
    (hstill : w.shared.db.transactions.find? t.id = some t') (hsettled : t'.status.Settled)
    {s : Session signature} (hopen : s ∈ w.sessions.rows)
    (hlate : ∃ y ∈ late, ∃ j, y.action = .start s.id j) :
    ∀ q ∈ s.txn.snapshots, FoundAs fingerprint userId t.id q.db := by
  intro q hq
  have hsafe := (payments_valid unicode).run hs.inv hr (starts_any _)
  obtain ⟨y, hy, rfl⟩ := hr.snapshots_late hopen hlate q hq
  obtain ⟨late₁, late₂, rfl⟩ := List.append_of_mem hy
  rw [List.append_assoc, List.cons_append] at hr
  have hbefore := (payments_valid unicode).leads hs.inv hr.cut.1 (starts_any _)
  have hafter := (hsafe.past s hopen y.before.shared hq).2
  obtain ⟨u, hu, hquote, hpending, -⟩ := movesOn_of_leads hbefore t.id t hpaid
  obtain ⟨t'', ht'', -, -, hunsettled⟩ := movesOn_of_leads hafter t.id u hu
  rw [hstill] at ht''
  cases ht''
  refine ⟨u, hu, hquote.deviceFingerprint.trans hf, ?_, ?_⟩
  · rw [hquote.userId]
    exact huser
  · by_contra hnot
    exact (hunsettled ⟨hpending hst, hnot⟩).2 hsettled

/-- After the transaction has been paid in `p`, another user's deposit from the same device is
started and committed in `c`. -/
structure Reuses (late : List (Transition signature)) (p c : Transition signature) (t : Transaction)
    (r : DepositCreateRequest) (d : DepositCreateResponse) : Prop where
  paid : p.after.shared.db.transactions.find? t.id = some t ∧ t.status = .paid
  device : ∃ fingerprint ≠ "", t.deviceFingerprint = some fingerprint ∧
    r.deviceFingerprint = some fingerprint
  user : r.user.id ≠ t.userId
  created : ∃ s settings, c.Commits s (.deposit d) ∧ s.job = .createDeposit settings r ∧
    ∃ y ∈ late, ∃ j, y.action = .start s.id j

/-- The deposit has an alert, if the transaction still is paid or completed when it is
created. -/
theorem device_reuse_flagged (hs : Opening start) {c : Transition signature}
    (hr : Run (bank unicode) start (c :: late ++ p :: early) w) {d : DepositCreateResponse}
    (hreuses : Reuses late p c t r d)
    (hstill : ∃ t', c.before.shared.db.transactions.find? t.id = some t' ∧ t'.status.Settled) :
    ∃ a ∈ w.shared.db.fraudAlerts, Flagged r d.transactionId a := by
  obtain ⟨⟨hpaid, hst⟩, ⟨fingerprint, hne, hf, hf'⟩, huser, s, settings, ⟨hopen, hact, hdone⟩,
    hjob, hlate⟩ := hreuses
  obtain ⟨t', hstill, hsettled⟩ := hstill
  cases hr with
  | @snoc _ w₀ _ a hr hstep =>
    have hact : a = .run s.id := hact
    have hopen : w₀.sessions.find? s.id = some s := hopen
    have hmem := Table.mem_of_find? hopen
    have hfound := foundAs_snapshots hs hr hpaid (by rw [hst]; decide) hf huser.symm hstill hsettled
      hmem hlate
    have hprog : ∀ j : Job, j = .createDeposit settings r → (bank unicode).autocommit j = false ∧
        ((bank unicode).program j).Yields (FoundAs fingerprint r.user.id t.id)
          (FlaggedDeposit r) [] := by
      rintro j rfl
      exact ⟨rfl, yields_createDeposit hf' hne⟩
    obtain ⟨d', hd', a', ha', hflagged⟩ := Run.yields (Q := fun _ => FlaggedDeposit r) hprog hr hmem
      hjob hfound hdone
    cases hd'
    refine ⟨a', ?_, hflagged⟩
    rw [hact] at hstep
    simp only [World.step, hopen, Option.bind_some, Session.advance, hdone, Option.map_some,
      Option.some.injEq] at hstep
    rw [← hstep]
    show a' ∈ (replay s.txn.pending w₀.shared.db).fraudAlerts
    rw [Database.fraudAlerts_replay]
    exact List.mem_append_right _ (List.mem_filterMap.mpr ⟨_, ha', rfl⟩)

end

/-! ## Two accounts -/

def bob : User where
  id := "bob"
  email := "bob@example.com"
  bingxUid := none

def launchTwo : Shared signature :=
  { launch with db := { launch.db with users := launch.db.users.put bob } }

theorem opening_launchTwo : Opening launchTwo := ⟨rfl, rfl, rfl, rfl, rfl⟩

def aliceDevice : DepositCreateRequest :=
  { aliceDeposit with deviceFingerprint := some "device", deviceFingerprint_length := by decide }

def bobDevice : DepositCreateRequest :=
  { aliceDevice with
    user := bob
    bingxUid := "87654321"
    bingxUid_length := by decide
    bingxUid_digits := by decide }

/-- Alice's deposit from the device, up to the commit of its payment. -/
def aliceDevicePaid : List (Action signature) :=
  .start 0 (.createDeposit depositSettings aliceDevice) :: runs 0 3 ++ .give 0 "deposit" ::
    runs 0 4 ++ commit 0 :: payDeposit

/-- Bob's deposit from the device in `n` operations after its identifier. -/
def bobDeviceDeposit (n : ℕ) : List (Action signature) :=
  .start 0 (.createDeposit depositSettings bobDevice) :: runs 0 3 ++ .give 0 "reuse" :: runs 0 n

/-- The deposit a transition commits. -/
def depositOf (c : Transition signature) : Option (DepositCreateRequest × DepositCreateResponse) :=
  match c.commit? with
  | some ⟨_, .createDeposit _ r, .done (.deposit d), _⟩ => some (r, d)
  | _ => none

theorem of_depositOf {c : Transition signature} {r : DepositCreateRequest}
    {d : DepositCreateResponse} (h : depositOf c = some (r, d)) :
    ∃ s settings, c.Commits s (.deposit d) ∧ s.job = .createDeposit settings r := by
  unfold depositOf at h
  split at h
  · next id settings r' d' txn hc =>
    cases h
    obtain ⟨v, hfind, hact, hdone⟩ := Transition.commits_of_commit? hc
    exact ⟨_, settings, ⟨hfind, hact, rfl⟩, rfl⟩
  · cases h

/-- With the transition Alice's deposit from the device is paid. -/
def paysAlice (p : Transition signature) : Bool :=
  match p.after.shared.db.transactions.find? "deposit" with
  | some t => t.status = .paid ∧ t.deviceFingerprint = some "device" ∧ t.userId = "alice"
  | none => false

/-- The last transition commits Bob's deposit from the device, while Alice's has this status;
whether there is a device alert then. -/
def bobCreates (status : TransactionStatus) (alerted : Bool) (late : List (Transition signature))
    (w : World signature) : Bool :=
  match late.head? with
  | some c =>
    (depositOf c).any (fun e => e.1.deviceFingerprint = some "device" ∧ e.1.user.id = "bob") &&
      (c.before.shared.db.transactions.find? "deposit").any (fun t => t.status = status) &&
      ((w.shared.db.fraudAlerts.any fun a => a.alertType = .deviceReuse) == alerted)
  | none => false

theorem exists_reuses (bs : List (Action signature)) (n : ℕ) (status : TransactionStatus)
    (alerted : Bool)
    (h : ((World.idle launchTwo).trace (bank .ascii) []
        (aliceDevicePaid ++ commit 0 :: (bs ++ bobDeviceDeposit n ++ [commit 0]))).map
      (fun r => (r.1[(bs ++ bobDeviceDeposit n ++ [commit 0]).length]?.map paysAlice,
        bobCreates status alerted (r.1.take (bs ++ bobDeviceDeposit n ++ [commit 0]).length)
          r.2)) = some (some true, true)) :
    ∃ late early p c w t r d, Run (bank .ascii) launchTwo (c :: late ++ p :: early) w ∧
      Reuses late p c t r d ∧
      (∃ t', c.before.shared.db.transactions.find? t.id = some t' ∧ t'.status = status) ∧
      (w.shared.db.fraudAlerts.any fun a => a.alertType = .deviceReuse) = alerted := by
  obtain ⟨late, p, early, w, hr, -, hlate, hp, hcreates⟩ :=
    Run.exists_of_trace_cons (bank .ascii) launchTwo _ _ _ _ _ h
  unfold paysAlice at hp
  split at hp
  · next t ht =>
    obtain ⟨hst, hf, huser⟩ := of_decide_eq_true hp
    unfold bobCreates at hcreates
    split at hcreates
    · next c hc =>
      simp only [Bool.and_eq_true, Option.any_eq_true, decide_eq_true_eq, beq_iff_eq] at hcreates
      obtain ⟨⟨⟨⟨r, d⟩, hd, hf', huser'⟩, t', ht', hst'⟩, halert⟩ := hcreates
      obtain ⟨s, settings, hcommits, hjob⟩ := of_depositOf hd
      obtain ⟨late, rfl⟩ : ∃ late', late = c :: late' := by
        cases late with
        | nil => cases hc
        | cons c' late =>
          cases hc
          exact ⟨late, rfl⟩
      rw [List.reverse_append, List.map_cons] at hlate
      obtain ⟨hact, hactions⟩ := List.cons.inj hlate
      have hid : s.id = 0 := Action.run.inj (hcommits.2.1.symm.trans hact)
      have hstart : .start 0 (.createDeposit depositSettings bobDevice) ∈
          late.map Transition.action := by
        rw [hactions]
        simp [bobDeviceDeposit]
      obtain ⟨y, hy, hstarted⟩ := List.mem_map.mp hstart
      have hkey : t.id = "deposit" := Table.key_of_find? ht
      rw [← hkey] at ht ht'
      refine ⟨late, early, p, c, w, t, r, d, hr, ⟨⟨ht, hst⟩, ⟨"device", by decide, hf, hf'⟩, ?_,
        ?_⟩, ⟨t', ht', hst'⟩, halert⟩
      · rw [huser, huser']
        decide
      · exact ⟨s, settings, hcommits, hjob, y, hy, _, by rw [hid]; exact hstarted⟩
    · cases hcreates
  · cases hp

/-- Bob deposits from Alice's device while her payout is still to be made. -/
theorem device_reuse_flagged_paid :
    ∃ (w : World signature) (r : DepositCreateRequest) (id : String),
      ∃ a ∈ w.shared.db.fraudAlerts, Flagged r id a := by
  obtain ⟨late, early, p, c, w, t, r, d, hr, hreuses, ⟨t', ht', hst'⟩, -⟩ :=
    exists_reuses [] 6 .paid true (by decide +kernel)
  exact ⟨w, r, d.transactionId, device_reuse_flagged opening_launchTwo hr hreuses
    ⟨t', ht', .inl hst'⟩⟩

/-- After a chargeback of Alice's transaction Bob's deposit from her device has no alert. -/
theorem not_device_reuse_flagged : ¬ ∀ (unicode : Unicode) (start : Shared signature)
    (late early : List (Transition signature)) (p c : Transition signature) (w : World signature)
    (t : Transaction) (r : DepositCreateRequest) (d : DepositCreateResponse), Opening start →
    Run (bank unicode) start (c :: late ++ p :: early) w → Reuses late p c t r d →
    ∃ a ∈ w.shared.db.fraudAlerts, Flagged r d.transactionId a := by
  intro h
  obtain ⟨late, early, p, c, w, t, r, d, hr, hreuses, -, halert⟩ :=
    exists_reuses (disputeDeposit 0 ++ blacklistDeposit 0 ++ [commit 0]) 4 .chargeback false
      (by decide +kernel)
  obtain ⟨a, ha, htype, -⟩ := h .ascii launchTwo late early p c w t r d opening_launchTwo hr hreuses
  rw [List.any_eq_false] at halert
  exact halert a ha (decide_eq_true htype)

end MoneyWay
