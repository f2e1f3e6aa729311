import MoneyWay.Coherence

/-!
# What BingX has accepted

Every transfer BingX accepts belongs to a deposit that a payment webhook has marked paid
before, is the only one of that deposit, and pays what was quoted, whatever workers are
rolled back after sending and whatever is sent again. A transfer that a chargeback has
cancelled was not accepted as long as no request for it was out when it was cancelled.
-/

set_option autoImplicit false

namespace MoneyWay

open Keyed ReadCommitted Python Sql

/-- The transition is the commit of the request that created the deposit, and answered
with this quote. -/
structure CreatedBy (t : Transaction) (x : Transition signature) : Prop where
  commits : ∃ s settings r discount commission amountUsdt,
    x.Commits s (.deposit ⟨t.id, .pending, r.amountRub, amountUsdt, commission, none⟩) ∧
      s.job = .createDeposit settings r ∧
      calculateDepositAmounts r.amountRub settings discount = .ok (commission, amountUsdt) ∧
      t.bingxUid = r.bingxUid ∧ t.amountUsdt.toDecimal.SameValue amountUsdt
  before : x.before.shared.db.transactions.find? t.id = none
  after : ∃ t₀, x.after.shared.db.transactions.find? t.id = some t₀ ∧ t₀.status = .pending

/-- The transition is the commit of a paid webhook with the stored amount, which moved the
deposit from pending to paid. -/
structure PaidBy (t : Transaction) (x : Transition signature) : Prop where
  commits : ∃ s v p holdMinutes amountRub, x.Commits s v ∧
    s.job = .sbpPaymentWebhook p holdMinutes ∧ p.transactionId = t.id ∧ p.status = .paid ∧
    p.amountRub = some amountRub ∧ amountRub.SameValue t.amountRub.toDecimal
  before : ∃ t₀, x.before.shared.db.transactions.find? t.id = some t₀ ∧ t₀.status = .pending
  after : ∃ t₁, x.after.shared.db.transactions.find? t.id = some t₁ ∧ t₁.status = .paid

theorem CreatedBy.congr {t t' : Transaction} {x : Transition signature} (h : CreatedBy t x)
    (hq : t.SameQuote t') : CreatedBy t' x := by
  obtain ⟨hc, hb, ha⟩ := h
  exact ⟨by rwa [hq.id, hq.bingxUid, hq.amountUsdt], by rwa [hq.id], by rwa [hq.id]⟩

theorem PaidBy.congr {t t' : Transaction} {x : Transition signature} (h : PaidBy t x)
    (hq : t.SameQuote t') : PaidBy t' x := by
  obtain ⟨hc, hb, ha⟩ := h
  exact ⟨by rwa [hq.id, hq.amountRub], by rwa [hq.id], by rwa [hq.id]⟩

section

variable {unicode : Unicode} {start : Shared signature} {tr : List (Transition signature)}
  {w : World signature}

/-- What is known of a transaction at a transition persists to the end. -/
theorem run_sameQuote (hs : Opening start) (hr : Run (bank unicode) start tr w)
    {x : Transition signature} (hx : x ∈ tr) {id : String} {t : Transaction}
    (ht : x.after.shared.db.transactions.find? id = some t) :
    ∃ t', w.shared.db.transactions.find? id = some t' ∧ t.SameQuote t' := by
  obtain ⟨late, early, rfl⟩ := List.append_of_mem hx
  obtain ⟨t', ht', hq, -⟩ := (run_persists hs hr).transaction id t ht
  exact ⟨t', ht', hq⟩

/-- A file that appears is that of a new deposit. -/
theorem createdBy_of_fileStep {x : Transition signature} {s : Session signature} {v : Result}
    {id : String} {f f' : Option File} (hc : x.Commits s v)
    (hbefore : x.before.shared.db.file id = f) (hafter : x.after.shared.db.file id = f')
    (hstep : FileStep unicode s.txn x.before.shared id s.job v f f') (hf : f = none)
    (hf' : f' ≠ none) :
    ∃ t, x.after.shared.db.transactions.find? id = some t ∧ CreatedBy t x := by
  generalize hj : s.job = j at hstep
  cases hstep with
  | kept => exact absurd hf hf'
  | created hquote hstored =>
    obtain ⟨ht, -⟩ := Database.find?_of_file hafter
    have hid := hstored.id
    obtain rfl : _ = id := hid
    refine ⟨_, ht, ⟨s, _, _, _, _, _, hc, hj, hquote, hstored.bingxUid, ?_⟩, ?_, _, ht,
      hstored.status⟩
    · exact sameValue_of_toNumeric hstored.amountUsdt (exponent_amountUsdt hquote)
    · exact Database.file_eq_none.mp hbefore
  | _ => cases hf

/-- A transfer that appears is that of a deposit being paid. -/
theorem paidBy_of_fileStep {x : Transition signature} {s : Session signature} {v : Result}
    {id : String} {f f' : Option File} (hc : x.Commits s v)
    (hbefore : x.before.shared.db.file id = f) (hafter : x.after.shared.db.file id = f')
    (hstep : FileStep unicode s.txn x.before.shared id s.job v f f')
    (hf : ¬ ∃ g ∈ f, g.transfer ≠ none) (hf' : ∃ g ∈ f', g.transfer ≠ none) :
    ∃ t, x.after.shared.db.transactions.find? id = some t ∧ PaidBy t x := by
  generalize hj : s.job = j at hstep
  obtain ⟨g', hg', hne⟩ := hf'
  cases hstep with
  | kept => exact absurd ⟨g', hg', hne⟩ hf
  | created | rejected =>
    cases hg'
    exact absurd rfl hne
  | @paid p _ _ t _ _ _ _ _ _ _ hid hp hst ha hsame =>
    obtain ⟨ht, -⟩ := Database.find?_of_file hbefore
    obtain ⟨ht', -⟩ := Database.find?_of_file hafter
    obtain rfl : t.id = id := Table.key_of_find? ht
    exact ⟨_, ht', ⟨s, _, _, _, _, hc, hj, hid, hp, ha, hsame⟩, ⟨t, ht, hst⟩, _, ht', rfl⟩
  | cancelled | recorded | reset => exact absurd ⟨_, rfl, Option.some_ne_none _⟩ hf
  | disputed =>
    cases hg'
    exact absurd ⟨_, rfl, hne⟩ hf

/-- Every deposit has been created by a request. -/
theorem exists_createdBy (hs : Opening start) (hr : Run (bank unicode) start tr w)
    (hj : Contract.Starts Job.Together tr) {id : String} {t : Transaction}
    (ht : w.shared.db.transactions.find? id = some t) : ∃ x ∈ tr, CreatedBy t x := by
  have hfile : w.shared.db.file id ≠ none := by
    rw [Database.file_of_find? ht]
    exact Option.some_ne_none _
  obtain ⟨x, hx, s, v, hc, hstep, hbefore, hafter⟩ :=
    exists_file_turn hs hr hj (p := fun f => f ≠ none) (fun h => h rfl) hfile
  obtain ⟨t₀, ht₀, hcreated⟩ :=
    createdBy_of_fileStep hc rfl rfl hstep (not_not.mp hbefore) hafter
  obtain ⟨t', ht', hq⟩ := run_sameQuote hs hr hx ht₀
  rw [ht] at ht'
  cases ht'
  exact ⟨x, hx, hcreated.congr hq⟩

/-- Every deposit with a transfer has been paid. -/
theorem exists_paidBy (hs : Opening start) (hr : Run (bank unicode) start tr w)
    (hj : Contract.Starts Job.Together tr) {y : BingxTransfer}
    (hy : y ∈ w.shared.db.bingxTransfers.rows) {t : Transaction}
    (ht : w.shared.db.transactions.find? y.transactionId = some t) : ∃ x ∈ tr, PaidBy t x := by
  obtain ⟨u, -, -, hfile⟩ := Database.file_of_transfer (run_inv hs hr).sound hy
  obtain ⟨x, hx, s, v, hc, hstep, hbefore, hafter⟩ :=
    exists_file_turn hs hr hj (p := fun f => ∃ g ∈ f, g.transfer ≠ none)
      (fun ⟨g, hg, _⟩ => by cases hg) ⟨_, hfile, Option.some_ne_none _⟩
  obtain ⟨t₀, ht₀, hpaid⟩ := paidBy_of_fileStep hc rfl rfl hstep hbefore hafter
  obtain ⟨t', ht', hq⟩ := run_sameQuote hs hr hx ht₀
  rw [ht] at ht'
  cases ht'
  exact ⟨x, hx, hpaid.congr hq⟩

/-- Every accepted request was on its way when BingX accepted it. -/
theorem exists_accept (hs : Opening start) (hr : Run (bank unicode) start tr w)
    (hj : Contract.Starts Job.Together tr) {q : TransferRequest}
    (hq : q ∈ w.shared.ext.accepted) :
    ∃ late x early, tr = late ++ x :: early ∧ x.action = .event (.accept q) ∧
      q ∈ x.before.shared.ext.wire := by
  refine (together_valid unicode).induction hs.inv
    (motive := fun tr w => q ∈ w.shared.ext.accepted → ∃ late x early, tr = late ++ x :: early ∧
      x.action = .event (.accept q) ∧ q ∈ x.before.shared.ext.wire) ?_ ?_ hr hj hq
  · intro h
    simp [World.idle, hs.accepted] at h
  · intro tr w a w' _ _ _ hchange ih hq
    have hold (h : q ∈ w.shared.ext.accepted) : ∃ late x early,
        (⟨w, a, w'⟩ :: tr : List (Transition signature)) = late ++ x :: early ∧
          x.action = .event (.accept q) ∧ q ∈ x.before.shared.ext.wire := by
      obtain ⟨late, x, early, rfl, h⟩ := ih h
      exact ⟨_ :: late, x, early, rfl, h⟩
    cases hchange with
    | silent _ he => exact hold (he ▸ hq)
    | commit _ _ _ _ _ he => exact hold (by rw [he] at hq; exact hq)
    | single _ hj ha => exact absurd ha (Job.Together.ne_true hj)
    | finished _ _ _ he => exact hold (he ▸ hq)
    | send _ _ _ he => exact hold (by rw [he] at hq; exact hq)
    | event ha he' he =>
      rw [he] at hq
      rcases Bingx.accepted_event he' hq with hq | ⟨rfl, hwire⟩
      · exact hold hq
      · exact ⟨[], _, tr, rfl, ha, hwire⟩

/-- Payout safety: of each deposit BingX has accepted at most one transfer, and every
transfer it has accepted is for the recipient and the amount quoted by the request that
created its deposit, which a paid webhook with the stored amount had marked paid before. -/
theorem payout_safety (hs : Opening start) (hr : Run (bank unicode) start tr w)
    (hj : Contract.Starts Job.Together tr) :
    (∀ id, (w.shared.ext.accepted.filter fun q =>
      q.idempotencyKey = idempotencyKey id).length ≤ 1) ∧
    ∀ q ∈ w.shared.ext.accepted, ∃ t, w.shared.db.transactions.find? t.id = some t ∧
      q.idempotencyKey = idempotencyKey t.id ∧ q.uid = t.bingxUid ∧ q.amountUsdt = t.amountUsdt ∧
      ∃ late x early, tr = late ++ x :: early ∧ x.action = .event (.accept q) ∧
        (∃ c ∈ early, CreatedBy t c) ∧ ∃ p ∈ early, PaidBy t p := by
  have hi := run_inv hs hr
  constructor
  · intro id
    have hcount := List.nodup_iff_count_le_one.mp hi.ledger.once (idempotencyKey id)
    rw [List.count, List.countP_map, List.countP_eq_length_filter] at hcount
    exact hcount
  · intro q hq
    obtain ⟨late, x, early, rfl, haccept, hwire⟩ := exists_accept hs hr hj hq
    obtain ⟨hearly, -⟩ := hr.cut
    have hj' : Contract.Starts Job.Together early := fun z hz => hj z (by simp [hz])
    -- the transfer the request was for, when it arrived
    have hix := run_inv hs hearly
    obtain ⟨y, hy, rfl⟩ := hix.ledger.wire q hwire
    obtain ⟨t₀, ht₀, -, hpays⟩ := hix.sound.owner y hy
    have hid : t₀.id = y.transactionId := Table.key_of_find? ht₀
    obtain ⟨t₁, ht₁, hmoves⟩ :=
      (run_evolves hs hr (x := x) (by simp)).transaction y.transactionId t₀ ht₀
    obtain ⟨t, ht, hq₁⟩ := run_sameQuote hs hr (x := x) (by simp) ht₁
    have hquote : t₀.SameQuote t := hmoves.quote.trans hq₁
    have hpays' : y.Pays t := hpays.congr (.refl y) hquote
    obtain ⟨c, hc, hcreated⟩ := exists_createdBy hs hearly hj' ht₀
    obtain ⟨p, hp, hpaid⟩ := exists_paidBy hs hearly hj' hy ht₀
    refine ⟨t, ?_, hpays'.idempotencyKey, hpays'.recipientUid, hpays'.amountUsdt, late, x, early,
      rfl, haccept, ⟨c, hc, hcreated.congr hquote⟩, p, hp, hpaid.congr hquote⟩
    rw [Table.key_of_find? ht]
    exact ht

/-- BingX accepts the payout, the worker is rolled back, and another one sends it again. -/
theorem payout_safety_sent_twice : ∃ tr w, Run (bank .ascii) launch tr w ∧
    (w.shared.ext.accepted = [payout] ∧ w.shared.ext.wire = [payout]) ∧
    ∃ t, w.shared.db.transactions.find? t.id = some t ∧ payout.uid = t.bingxUid ∧
      ∃ p ∈ tr, PaidBy t p := by
  obtain ⟨tr, w, hr, hactions, hw⟩ := Run.exists_of_trace (bank .ascii) launch
    (paidDeposit ++ sendPayout 0 ++ .event (.accept payout) :: .rollback 0 :: sendPayout 1)
    (fun r => (r.2.shared.ext.accepted, r.2.shared.ext.wire)) (b := ([payout], [payout]))
    (by decide)
  obtain ⟨haccepted, hwire⟩ :
      w.shared.ext.accepted = [payout] ∧ w.shared.ext.wire = [payout] := Prod.mk.inj hw
  have hj : Contract.Starts Job.Together tr := Contract.Starts.of_actions hactions (by decide)
  obtain ⟨t, ht, -, huid, -, late, x, early, rfl, -, -, p, hp, hpaid⟩ :=
    (payout_safety opening_launch hr hj).2 payout (by simp [haccepted])
  exact ⟨_, w, hr, ⟨haccepted, hwire⟩, t, ht, huid, p, by simp [hp], hpaid⟩

/-! ## Cancelled transfers -/

/-- No request with this key has been accepted or is on its way. -/
def NotOut (b : Bingx) (key : String) : Prop :=
  (∀ q ∈ b.wire, q.idempotencyKey ≠ key) ∧ ∀ q ∈ b.accepted, q.idempotencyKey ≠ key

/-- When a chargeback of an eligible deposit commits, no request is out for a transfer it
cancels. -/
def CancelsUnsent (x : Transition signature) : Prop :=
  ∀ s v p t, x.Commits s v → s.job = .sbpChargebackWebhook p →
    x.before.shared.db.transactions.find? p.transactionId = some t →
    t.status ∈ chargebackEligibleStatuses →
    ∀ y ∈ unsent x.before.shared.db p.transactionId,
      NotOut x.before.shared.ext y.idempotencyKey

/-- A cancelled transfer was cancelled before, or is cancelled by this chargeback. -/
theorem FileStep.of_cancelled {x : Txn signature} {s : Shared signature} {id : String} {j : Job}
    {v : Result} {f f' : Option File} {y : BingxTransfer}
    (hstep : FileStep unicode x s id j v f f') (hy : ∃ g ∈ f', g.transfer = some y)
    (hst : y.status = .cancelled) :
    (∃ g ∈ f, g.transfer = some y) ∨ ∃ p y₀ now, j = .sbpChargebackWebhook p ∧
      p.transactionId = id ∧
      (∃ g ∈ f, g.transaction.status ∈ chargebackEligibleStatuses ∧ g.transfer = some y₀) ∧
      (y₀.status = .pending ∨ y₀.status = .processing) ∧ y = y₀.cancel now := by
  obtain ⟨g, hg, hgy⟩ := hy
  cases hstep with
  | kept => exact .inl ⟨g, hg, hgy⟩
  | created | rejected =>
    cases hg
    cases hgy
  | paid =>
    cases hg
    cases hgy
    cases hst
  | cancelled hid ht _ _ hopen =>
    cases hg
    cases hgy
    exact .inr ⟨_, _, _, rfl, hid, ⟨_, rfl, ht, rfl⟩, hopen, rfl⟩
  | disputed =>
    cases hg
    exact .inl ⟨_, rfl, hgy⟩
  | recorded _ _ _ hset =>
    cases hg
    cases hgy
    exact absurd hst hset.ne_cancelled
  | reset =>
    cases hg
    cases hgy
    cases hst

/-- If every chargeback only cancels transfers that are not out, what is recorded as
cancelled has not been accepted. -/
theorem cancelled_not_accepted (hs : Opening start) (hr : Run (bank unicode) start tr w)
    (hj : Contract.Starts Job.Together tr) (hcancels : ∀ x ∈ tr, CancelsUnsent x) :
    ∀ y ∈ w.shared.db.bingxTransfers.rows, y.status = .cancelled →
      ∀ q ∈ w.shared.ext.accepted, q.idempotencyKey ≠ y.idempotencyKey := by
  suffices h : ∀ y ∈ w.shared.db.bingxTransfers.rows, y.status = .cancelled →
      NotOut w.shared.ext y.idempotencyKey from fun y hy hst => (h y hy hst).2
  refine (together_valid unicode).induction hs.inv
    (motive := fun tr w => (∀ x ∈ tr, CancelsUnsent x) →
      ∀ y ∈ w.shared.db.bingxTransfers.rows, y.status = .cancelled →
        NotOut w.shared.ext y.idempotencyKey) ?_ ?_ hr hj hcancels
  · intro _ y hy
    simp [World.idle, hs.bingxTransfers] at hy
  · intro tr w a w' _ hsafe hsafe' hchange ih hcancels y hy hst
    have ih := ih fun x hx => hcancels x (List.mem_cons_of_mem _ hx)
    cases hchange with
    | silent _ he =>
      rw [he] at hy ⊢
      exact ih y hy hst
    | event _ he' he =>
      rw [he] at hy ⊢
      obtain ⟨hwire, haccepted⟩ := ih y hy hst
      refine ⟨fun q hq => hwire q (Bingx.wire_event he' hq), fun q hq => ?_⟩
      rcases Bingx.accepted_event he' hq with hq | ⟨-, hq⟩
      · exact haccepted q hq
      · exact hwire q hq
    | @send j q _ hj hsends he =>
      rw [he] at hy ⊢
      obtain ⟨hwire, haccepted⟩ := ih y hy hst
      refine ⟨fun r hr => ?_, haccepted⟩
      rcases List.mem_append.mp hr with hr | hr
      · exact hwire r hr
      · -- what is sent is for a transfer that is not cancelled
        obtain rfl := List.mem_singleton.mp hr
        obtain ⟨z, hz, rfl, -, hopen⟩ := hsends
        intro hkey
        obtain rfl := hsafe.inv.sound.eq_of_idempotencyKey hz hy hkey
        rcases hopen hj with h | h <;> rw [hst] at h <;> cases h
    | single _ hj ha => exact absurd ha (Job.Together.ne_true hj)
    | finished _ hj ha => exact absurd ha (Job.Together.ne_true hj)
    | @commit s v hc hj _ ho hpast he =>
      have hfile : ∃ g ∈ w'.shared.db.file y.transactionId, g.transfer = some y := by
        obtain ⟨t, -, -, hfile⟩ := Database.file_of_transfer hsafe'.inv.sound hy
        exact ⟨_, hfile, rfl⟩
      have hstep := Outcome.fileStep hsafe.inv (fun q hq => (hpast q hq).1) ho y.transactionId
      have hdb : w'.shared.db = replay s.txn.pending w.shared.db := by rw [he]
      rw [← hdb] at hstep
      have hext : w'.shared.ext = w.shared.ext := by rw [he]
      rw [hext]
      rcases hstep.of_cancelled hfile hst with ⟨g, hg, hold⟩ | hcancel
      · obtain ⟨-, htr, -⟩ := Database.find?_of_file hg
        obtain ⟨hmem, -⟩ := (Database.transferOf_eq_some hsafe.inv.sound).mp (htr.trans hold)
        exact ih y hmem hst
      · obtain ⟨p, y₀, now, hp, hid, ⟨g, hg, helig, hold⟩, hopen, rfl⟩ := hcancel
        obtain ⟨ht, htr, -⟩ := Database.find?_of_file hg
        obtain ⟨hmem, htid⟩ := (Database.transferOf_eq_some hsafe.inv.sound).mp (htr.trans hold)
        rw [← hid] at ht
        exact hcancels _ List.mem_cons_self s v p g.transaction hc hp ht helig y₀
          (mem_unsent.mpr ⟨hmem, htid.trans hid.symm, hopen⟩)

end

/-- A deposit charged back before its payout is sent. -/
theorem cancelled_not_accepted_unsent : ∃ tr w, Run (bank .ascii) launch tr w ∧
    fileStatuses w = some (.chargeback, some .cancelled) ∧
    ∀ y ∈ w.shared.db.bingxTransfers.rows, y.status = .cancelled →
      ∀ q ∈ w.shared.ext.accepted, q.idempotencyKey ≠ y.idempotencyKey := by
  obtain ⟨tr, w, hr, hactions, hw⟩ := Run.exists_of_trace (bank .ascii) launch
    (paidDeposit ++ disputeDeposit 0 ++ blacklistDeposit 0 ++ [commit 0])
    (fun r => (decide (∀ x ∈ r.1, x.before.shared.ext.wire = [] ∧
      x.before.shared.ext.accepted = []), fileStatuses r.2))
    (b := (true, some (.chargeback, some .cancelled))) (by decide)
  obtain ⟨hempty, hstatuses⟩ := Prod.mk.inj hw
  have hj : Contract.Starts Job.Together tr := Contract.Starts.of_actions hactions (by decide)
  have hcancels : ∀ x ∈ tr, CancelsUnsent x := by
    intro x hx _ _ _ _ _ _ _ _ y _
    obtain ⟨hwire, haccepted⟩ := of_decide_eq_true hempty x hx
    simp [NotOut, hwire, haccepted]
  exact ⟨tr, w, hr, hstatuses, cancelled_not_accepted opening_launch hr hj hcancels⟩

/-- BingX accepts the payout, the worker only sees a broken connection and puts the
transfer back, and a chargeback comes before the next attempt. -/
def chargebackAfterBrokenConnection : List (Action signature) :=
  paidDeposit ++ sendPayout 0 ++ .event (.accept payout) ::
    recordAnswer 0 (.connectionError "read timeout") 2 ++ commit 0 :: disputeDeposit 0 ++
      blacklistDeposit 0 ++ [commit 0]

/-- What is recorded of the payout, and what BingX has accepted. -/
def payoutRecord (w : World signature) :
    Option (TransferStatus × String) × List String :=
  ((w.shared.db.bingxTransfers.find? "payout").map fun y => (y.status, y.idempotencyKey),
    w.shared.ext.accepted.map (·.idempotencyKey))

/-- A cancelled transfer may have been paid out. -/
theorem not_cancelled_not_accepted : ¬ ∀ (unicode : Unicode) (start : Shared signature)
    (tr : List (Transition signature)) (w : World signature), Opening start →
    Run (bank unicode) start tr w → Contract.Starts Job.Together tr →
    ∀ y ∈ w.shared.db.bingxTransfers.rows, y.status = .cancelled →
      ∀ q ∈ w.shared.ext.accepted, q.idempotencyKey ≠ y.idempotencyKey := by
  intro h
  obtain ⟨tr, w, hr, hactions, hw⟩ := Run.exists_of_trace (bank .ascii) launch
    chargebackAfterBrokenConnection (fun r => payoutRecord r.2)
    (b := (some (.cancelled, "bingx-transfer:deposit"), ["bingx-transfer:deposit"])) (by decide)
  have hj : Contract.Starts Job.Together tr := Contract.Starts.of_actions hactions (by decide)
  obtain ⟨hrow, haccepted⟩ := Prod.mk.inj hw
  obtain ⟨y, hy, hst⟩ := Option.map_eq_some_iff.mp hrow
  obtain ⟨hcancelled, hkey⟩ := Prod.mk.inj hst
  have hmem : "bingx-transfer:deposit" ∈ w.shared.ext.accepted.map (·.idempotencyKey) := by
    rw [haccepted]
    exact List.mem_singleton_self _
  obtain ⟨q, hq, hqkey⟩ := List.mem_map.mp hmem
  exact h .ascii launch tr w opening_launch hr hj y (Table.mem_of_find? hy) hcancelled q hq
    (hqkey.trans hkey.symm)

end MoneyWay
