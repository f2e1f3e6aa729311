import MoneyWay.Coherence
import MoneyWay.Routes

/-!
# The first payment decides

The payment webhook may be delivered any number of times, each time with other payer data, and
its `INSERT` of the KYC record would overwrite the one that is there. Yet the record is always
that of the one payment that has moved the deposit from pending to paid.

## Main definitions

- `Pays` — the commit of the payment
- `Provenance` — there has been no payment, or what is stored is of the only one

## Main results

- `first_payment_decides` — every KYC record is of the only payment of its deposit
-/

set_option autoImplicit false

namespace MoneyWay

open Keyed ReadCommitted Python Prog Sql

/-! ## What the webhook writes -/

/-- The payer is the one of the webhook. -/
def KycRecord.Names (p : SBPPaymentWebhook) (k : KycRecord) : Prop :=
  p.payerName = some k.payerName ∧ k.payerName ≠ "" ∧
    p.payerPhone = some k.payerPhone ∧ k.payerPhone ≠ ""

def Write.Names (p : SBPPaymentWebhook) : Write → Prop
  | .kycRecord k => k.Names p
  | _ => True

section Writes

variable {unicode : Unicode} {φ : Answer → Prop} {p : SBPPaymentWebhook}

theorem names_updateTransaction {id : String} {texts : List (ℕ × Option String)}
    {set : Transaction → Transaction} : Prog.Writes (σ := signature) φ (Write.Names p)
      (exec (updateTransaction id texts (fun _ => true) set)) := by
  refine Prog.Writes.exec fun blocked d eff hq w hw => ?_
  cases hf : d.transactions.find? id with
  | none =>
    rw [updateTransaction_none hf hq] at hw
    cases hw
  | some t =>
    rw [updateTransaction_ok hf hq] at hw
    rw [List.mem_singleton.mp hw]
    exact trivial

theorem names_releasePromoCode {id : String} :
    (releasePromoCode id).Writes φ (Write.Names p) := by
  refine Prog.Writes.exec fun blocked d eff hq w hw => ?_
  unfold updatePromoRelease at hq
  split at hq
  · cases hq
    cases hw
  · split at hq
    · cases hq
      rw [List.mem_singleton.mp hw]
      exact trivial
    · cases hq
      cases hw

/-- Also where the record is overwritten, it is with the payer of the webhook. -/
theorem names_upsertKycRecord {payerName payerPhone : String} {amountRub : Numeric 2}
    (hname : p.payerName = some payerName ∧ payerName ≠ "")
    (hphone : p.payerPhone = some payerPhone ∧ payerPhone ≠ "") :
    (upsertKycRecord p payerName payerPhone amountRub).Writes φ (Write.Names p) := by
  refine Prog.Writes.now fun now => Prog.Writes.exec fun blocked d eff hq w hw => ?_
  unfold upsertKyc at hq
  split at hq
  · cases hq
  · split at hq
    · cases hq
      rw [List.mem_singleton.mp hw]
      exact ⟨hname.1, hname.2, hphone.1, hphone.2⟩
    · split at hq
      · cases hq
        rw [List.mem_singleton.mp hw]
        exact ⟨hname.1, hname.2, hphone.1, hphone.2⟩
      · cases hq

theorem names_scheduleBingxTransfer {transaction : Transaction} {holdMinutes : ℤ} :
    (scheduleBingxTransfer transaction holdMinutes).Writes φ (Write.Names p) := by
  refine Prog.Writes.now fun now => Prog.Writes.bind (fun _ => trivial) fun id =>
    Prog.Writes.bind (Prog.Writes.exec fun blocked d eff hq w hw => ?_) fun _ =>
      Prog.Writes.exec fun blocked d eff hq w hw => ?_
  · unfold insertTransfer at hq
    split at hq
    · cases hq
      cases hw
    · split at hq
      · cases hq
      · split at hq
        · cases hq
          rw [List.mem_singleton.mp hw]
          exact trivial
        · cases hq
  · cases hq
    rw [List.mem_singleton.mp hw]
    exact trivial

theorem names_handleSbpPaymentWebhook (holdMinutes : ℤ) :
    (handleSbpPaymentWebhook p holdMinutes).Writes φ (Write.Names p) := by
  have hlog {eventType : EventType} {userId transactionId : Option String} {payload : Details} :
      (writeAuditLog eventType userId transactionId payload none none none).Writes φ
        (Write.Names p) := writes_writeAuditLog fun _ => trivial
  have some_of_filter {o : Option String} {v : String} (h : o.filter (· ≠ "") = some v) :
      o = some v ∧ v ≠ "" := by
    obtain ⟨ho, hv⟩ := Option.filter_eq_some_iff.mp h
    exact ⟨ho, by simpa using hv⟩
  refine Prog.Writes.bind (Prog.Writes.exec fun blocked d eff hq w hw => ?_) fun row => ?_
  · rcases selectTransactionForUpdate_ok hq with ⟨-, rfl⟩ | ⟨t, -, rfl⟩ <;> cases hw
  cases row with
  | none => exact hlog
  | some transaction =>
    dsimp only
    split
    · exact trivial
    cases p.status with
    | failed =>
      dsimp only
      split
      · exact trivial
      · exact Prog.Writes.now fun now => Prog.Writes.bind names_updateTransaction fun _ =>
          Prog.Writes.bind names_releasePromoCode fun _ => hlog
    | paid =>
      dsimp only
      split
      · exact trivial
      split
      · next payerName payerPhone hname hphone =>
        split
        · exact trivial
        · split
          · exact Prog.Writes.now fun now =>
              Prog.Writes.bind (writes_insertFraudAlert trivial) fun _ => hlog
          · exact Prog.Writes.now fun now => Prog.Writes.bind names_updateTransaction fun _ =>
              Prog.Writes.bind
                (names_upsertKycRecord (some_of_filter hname) (some_of_filter hphone)) fun _ =>
                Prog.Writes.bind names_scheduleBingxTransfer fun _ => hlog
      · exact trivial

end Writes

/-! ## The only payment -/

/-- The transition is the commit of a webhook that has moved the deposit from pending to paid. -/
structure Pays (id : String) (p : SBPPaymentWebhook) (x : Transition signature) : Prop where
  commits : ∃ s v holdMinutes, x.Commits s v ∧ s.job = .sbpPaymentWebhook p holdMinutes ∧
    p.transactionId = id
  before : ∃ t, x.before.shared.db.transactions.find? id = some t ∧ t.status = .pending
  after : ∃ t, x.after.shared.db.transactions.find? id = some t ∧ t.status = .paid

/-- What is stored is what the payment has left. -/
structure LeftBy (p : SBPPaymentWebhook) (x : Transition signature) (t : Transaction)
    (k : KycRecord) : Prop where
  row : x.after.shared.db.kycRecords.find? t.id = some k
  amountRub : ∃ a, p.amountRub = some a ∧ a.SameValue k.amountRub.toDecimal
  sbpPaymentId : t.sbpPaymentId = p.sbpPaymentId

theorem LeftBy.congr {p : SBPPaymentWebhook} {x : Transition signature} {t t' : Transaction}
    {k : KycRecord} (h : LeftBy p x t k) (hid : t'.id = t.id)
    (hpayment : t'.sbpPaymentId = t.sbpPaymentId) : LeftBy p x t' k :=
  ⟨hid ▸ h.row, h.amountRub, hpayment.trans h.sbpPaymentId⟩

/-- No payment has left anything. -/
def File.Unpaid (f : Option File) : Prop :=
  ∀ g ∈ f, g.kyc = none ∧ (g.transaction.status = .pending → g.transaction.sbpPaymentId = none)

/-- The commit has moved the deposit from pending to paid. -/
def File.Turned (f f' : Option File) : Prop :=
  (∃ g ∈ f, g.transaction.status = .pending) ∧ ∃ g ∈ f', g.transaction.status = .paid

/-- There has been no payment, or what is stored is of the only one. -/
inductive Provenance (id : String) : List (Transition signature) → Option File → Prop
  | unpaid {tr : List (Transition signature)} {f : Option File} : File.Unpaid f →
      (∀ z ∈ tr, ∀ p, ¬ Pays id p z) → Provenance id tr f
  | paid {late early : List (Transition signature)} {x : Transition signature}
      {p : SBPPaymentWebhook} {t : Transaction} {m : Option BingxTransfer} {k : KycRecord} :
      Pays id p x → (∀ z ∈ late ++ early, ∀ p', ¬ Pays id p' z) → LeftBy p x t k →
      Provenance id (late ++ x :: early) (some ⟨t, m, some k⟩)

theorem Pays.turned {id : String} {p : SBPPaymentWebhook} {x : Transition signature}
    (h : Pays id p x) :
    File.Turned (x.before.shared.db.file id) (x.after.shared.db.file id) := by
  obtain ⟨-, ⟨t, ht, hpending⟩, ⟨t', ht', hpaid⟩⟩ := h
  exact ⟨⟨_, Database.file_of_find? ht, hpending⟩, _, Database.file_of_find? ht', hpaid⟩

/-- A commit that is no payment. -/
theorem Provenance.keep {id : String} {tr : List (Transition signature)} {x : Transition signature}
    {f f' : Option File} (h : Provenance id tr f) (hno : ∀ p, ¬ Pays id p x)
    (hunpaid : File.Unpaid f → File.Unpaid f')
    (hpaid : ∀ t m k, f = some ⟨t, m, some k⟩ → ∃ t' m', f' = some ⟨t', m', some k⟩ ∧
      t'.id = t.id ∧ t'.sbpPaymentId = t.sbpPaymentId) : Provenance id (x :: tr) f' := by
  cases h with
  | unpaid hf hnone =>
    refine .unpaid (hunpaid hf) fun z hz => ?_
    rcases List.mem_cons.mp hz with rfl | hz
    · exact hno
    · exact hnone z hz
  | @paid late early x₀ p t m k hpays honly hleft =>
    obtain ⟨t', m', rfl, hid, hpayment⟩ := hpaid t m k rfl
    change Provenance id ((x :: late) ++ x₀ :: early) _
    refine .paid hpays (fun z hz => ?_) (hleft.congr hid hpayment)
    rcases List.mem_cons.mp hz with rfl | hz
    · exact hno
    · exact honly z hz

theorem Transaction.sbpPaymentId_of_settled {y y' : BingxTransfer} {now : Timestamp} {route : Route}
    {set : Transaction → Transaction} (h : Settled y now route y' (some set)) (t : Transaction) :
    (set t).id = t.id ∧ (set t).sbpPaymentId = t.sbpPaymentId ∧ (set t).status ≠ .pending := by
  cases h <;>
    exact ⟨rfl, rfl, by simp [Transaction.complete, Transaction.fail, Transaction.escalate]⟩

section

variable {unicode : Unicode} {start : Shared signature} {tr : List (Transition signature)}
  {w : World signature}

/-- The step lemma. -/
theorem FileStep.provenance {x : Transition signature} {s : Session signature} {id : String}
    {v : Result} {f f' : Option File} (hc : x.Commits s v)
    (hstep : FileStep unicode s.txn x.before.shared id s.job v f f')
    (hbefore : x.before.shared.db.file id = f) (hafter : x.after.shared.db.file id = f')
    (h : Provenance id tr f) : Provenance id (x :: tr) f' := by
  have hno (hsame : ¬ File.Turned f f') (p : SBPPaymentWebhook) : ¬ Pays id p x := by
    intro hpays
    have hturned := hpays.turned
    rw [hbefore, hafter] at hturned
    exact hsame hturned
  generalize hjob : s.job = j at hstep
  cases hstep with
  | kept =>
    refine h.keep (hno ?_) (fun hf => hf) fun t m k hf => ⟨t, m, hf, rfl, rfl⟩
    rintro ⟨⟨g, hg, hpending⟩, g', hg', hpaid⟩
    obtain rfl := Option.mem_unique hg hg'
    rw [hpending] at hpaid
    cases hpaid
  | created _ hstored =>
    refine h.keep (hno ?_) (fun _ g hg => ?_) fun t m k hf => ?_
    · rintro ⟨⟨g, hg, -⟩, -⟩
      cases hg
    · cases hg
      exact ⟨rfl, fun _ => hstored.sbpPaymentId⟩
    · cases hf
  | rejected =>
    refine h.keep (hno ?_) (fun _ g hg => ?_) fun t m k hf => ?_
    · rintro ⟨-, g, hg, hpaid⟩
      cases hg
      cases hpaid
    · cases hg
      exact ⟨rfl, fun hpending => by cases hpending⟩
    · cases hf
  | @paid p holdMinutes v t amountRub payerName payerPhone transferId now now₁ now₂ hid hp ht ha
      hsame =>
    obtain ⟨hrow, -⟩ := Database.find?_of_file hbefore
    obtain ⟨hrow', -, hk⟩ := Database.find?_of_file hafter
    have htid : t.id = id := Table.key_of_find? hrow
    cases h with
    | unpaid hf hnever =>
      have hpays : Pays id p x := ⟨⟨s, v, holdMinutes, hc, hjob, hid⟩, ⟨t, hrow, ht⟩, _, hrow', rfl⟩
      change Provenance id ([] ++ x :: tr) _
      refine .paid hpays hnever ⟨?_, ⟨amountRub, ha, hsame⟩, ?_⟩
      · rw [show (t.pay p.sbpPaymentId now).id = id from htid]
        exact hk
      · show (p.sbpPaymentId <|> t.sbpPaymentId) = p.sbpPaymentId
        rw [(hf _ rfl).2 ht]
        cases p.sbpPaymentId <;> rfl
  | cancelled | disputed =>
    refine h.keep (hno ?_) (fun hf g hg => ?_) fun t m k hf => ?_
    · rintro ⟨-, g, hg, hpaid⟩
      cases hg
      cases hpaid
    · cases hg
      exact ⟨(hf _ rfl).1, fun hpending => by cases hpending⟩
    · cases hf
      exact ⟨_, _, rfl, rfl, rfl⟩
  | @recorded settings y y' now a set t t' k _ _ _ hset hupdated =>
    obtain ⟨hid, hpayment, hsame⟩ : t'.id = t.id ∧ t'.sbpPaymentId = t.sbpPaymentId ∧
        (t' = t ∨ t.status = .paid ∧ t'.status ≠ .pending) := by
      cases hupdated with
      | none | skipped => exact ⟨rfl, rfl, .inl rfl⟩
      | paid hpaid =>
        obtain ⟨hid, hpayment, hne⟩ := Transaction.sbpPaymentId_of_settled hset t
        exact ⟨hid, hpayment, .inr ⟨hpaid, hne⟩⟩
    refine h.keep (hno ?_) (fun hf g hg => ?_) fun t₀ m k₀ hf => ?_
    · rintro ⟨⟨g, hg, hpending⟩, g', hg', hpaid⟩
      cases hg
      cases hg'
      rcases hsame with rfl | ⟨hst, -⟩
      · rw [hpending] at hpaid
        cases hpaid
      · rw [hpending] at hst
        cases hst
    · cases hg
      obtain ⟨hnone, hpending⟩ := hf _ rfl
      refine ⟨hnone, fun hst => ?_⟩
      rcases hsame with rfl | ⟨-, hne⟩
      · exact hpending hst
      · exact absurd hst hne
    · cases hf
      exact ⟨t', _, rfl, hid, hpayment⟩
  | reset =>
    refine h.keep (hno ?_) (fun hf g hg => ?_) fun t m k hf => ?_
    · rintro ⟨⟨g, hg, hpending⟩, g', hg', hpaid⟩
      cases hg
      cases hg'
      rw [hpending] at hpaid
      cases hpaid
    · cases hg
      obtain ⟨hnone, hpending⟩ := hf _ rfl
      exact ⟨hnone, hpending⟩
    · cases hf
      exact ⟨_, _, rfl, rfl, rfl⟩

/-- The run lemma. -/
theorem run_provenance (hs : Opening start) (hr : Run (bank unicode) start tr w)
    (hj : Contract.Starts Job.Together tr) (id : String) :
    Provenance id tr (w.shared.db.file id) := by
  refine file_induction hs id (motive := fun tr f => Provenance id tr f) ?_ ?_ ?_ hr hj
  · exact .unpaid (fun g hg => by cases hg) fun z hz => by cases hz
  · intro tr x f hne ih
    refine ih.keep (fun p hpays => ?_) (fun hf => hf) fun t m k hf => ⟨t, m, hf, rfl, rfl⟩
    obtain ⟨s, v, _, hc, -⟩ := hpays.commits
    exact hne s v hc
  · intro tr x s v f' _ _ hc _ hstep hafter ih
    exact hstep.provenance hc rfl hafter ih

/-- A payment names the payer of its webhook. -/
theorem Pays.names (hs : Opening start) (hr : Run (bank unicode) start tr w)
    {x : Transition signature} (hx : x ∈ tr) {id : String} {p : SBPPaymentWebhook}
    (hpays : Pays id p x) {k : KycRecord}
    (hafter : x.after.shared.db.kycRecords.find? id = some k) : k.Names p := by
  obtain ⟨⟨s, v, holdMinutes, ⟨hfind, hact, -⟩, hjob, -⟩, ⟨t, ht, hpending⟩, -⟩ := hpays
  have hprog : ∀ j : Job, j = .sbpPaymentWebhook p holdMinutes →
      ((bank unicode).program j).Writes (fun _ => True) (Write.Names p) := by
    rintro _ rfl
    exact Prog.Writes.bind (names_handleSbpPaymentWebhook holdMinutes) fun _ => trivial
  obtain ⟨ws, hdb, hws⟩ := hr.writes hprog hx hfind hact hjob fun _ _ => trivial
  obtain ⟨_, _, _, hearly, -⟩ := hr.cut_of_mem hx
  rw [hdb] at hafter
  rcases Database.kycRecord_replay hafter with ⟨hw, -⟩ | ⟨hold, -⟩
  · exact hws _ hw
  · rw [((run_inv hs hearly).sound.bare ht hpending).1] at hold
    cases hold

/-- A deposit has a KYC record exactly when a payment has been taken for it. Then it is the only
one, however often webhooks have been delivered: the record is as that payment has left it, with
the payer and the amount of its webhook, and the deposit has the id of its payment. -/
theorem first_payment_decides (hs : Opening start) (hr : Run (bank unicode) start tr w)
    (hj : Contract.Starts Job.Together tr) (id : String) :
    ((∃ x ∈ tr, ∃ p, Pays id p x) ↔ ∃ k, w.shared.db.kycRecords.find? id = some k) ∧
    ∀ k, w.shared.db.kycRecords.find? id = some k → ∃ late x early p, tr = late ++ x :: early ∧
      Pays id p x ∧ (∀ z ∈ late ++ early, ∀ p', ¬ Pays id p' z) ∧
      x.after.shared.db.kycRecords.find? id = some k ∧ k.Names p ∧
      (∃ a, p.amountRub = some a ∧ a.SameValue k.amountRub.toDecimal) ∧
      ∃ t, w.shared.db.transactions.find? id = some t ∧ t.amountRub = k.amountRub ∧
        t.sbpPaymentId = p.sbpPaymentId := by
  have hprovenance := run_provenance hs hr hj id
  generalize hf : w.shared.db.file id = f at hprovenance
  cases hprovenance with
  | unpaid hunpaid hnever =>
    have hnone (k : KycRecord) : w.shared.db.kycRecords.find? id ≠ some k := by
      intro hk
      obtain ⟨t, ht, -⟩ := (run_inv hs hr).sound.kyc k (Table.mem_of_find? hk)
      rw [show k.transactionId = id from Table.key_of_find? hk] at ht
      rw [Database.file_of_find? ht, hk] at hf
      have hempty := (hunpaid _ hf.symm).1
      cases hempty
    exact ⟨⟨fun ⟨x, hx, p, hpays⟩ => absurd hpays (hnever x hx p), fun ⟨k, hk⟩ =>
      absurd hk (hnone k)⟩, fun k hk => absurd hk (hnone k)⟩
  | @paid late early x p t m k hpays honly hleft =>
    obtain ⟨ht, -, hk⟩ := Database.find?_of_file hf
    have htid : t.id = id := Table.key_of_find? ht
    have hrow := hleft.row
    rw [htid] at hrow
    refine ⟨⟨fun _ => ⟨k, hk⟩, fun _ => ⟨x, by simp, p, hpays⟩⟩, fun k' hk' => ?_⟩
    obtain rfl : k' = k := Option.some.inj (hk'.symm.trans hk)
    obtain ⟨u, hu, -, hamount⟩ := (run_inv hs hr).sound.kyc k' (Table.mem_of_find? hk)
    rw [show k'.transactionId = id from Table.key_of_find? hk, ht] at hu
    cases hu
    exact ⟨late, x, early, p, rfl, hpays, honly, hrow, hpays.names hs hr (by simp) hrow,
      hleft.amountRub, t, ht, hamount.symm, hleft.sbpPaymentId⟩

end

/-! ### A second payer -/

/-- The same payment, said to be from somebody else. -/
def malloryPayment : SBPPaymentWebhook where
  transactionId := "deposit"
  status := .paid
  sbpPaymentId := some "other"
  payerName := some "Mallory"
  payerPhone := some "+79991111111"
  amountRub := some (.ofNat 5000)
  transactionId_nonempty := alicePayment.transactionId_nonempty
  amountRub_kopecks := alicePayment.amountRub_kopecks

/-- It comes after the payment of Alice. -/
def paidTwice : List (Action signature) :=
  paidDeposit ++ .start 0 (.sbpPaymentWebhook malloryPayment 0) :: runs 0 1 ++ [commit 0]

theorem first_payment_decides_twice : ∃ tr w k, Run (bank .ascii) launch tr w ∧
    w.shared.db.kycRecords.find? "deposit" = some k ∧ k.payerName = "Alice" ∧
    ∃ x ∈ tr, ∃ p, Pays "deposit" p x ∧ k.Names p := by
  obtain ⟨tr, w, hr, hactions, hw⟩ := Run.exists_of_trace (bank .ascii) launch paidTwice
    (fun r => (r.2.shared.db.kycRecords.find? "deposit").map (·.payerName))
    (b := some "Alice") (by decide)
  obtain ⟨k, hk, hname⟩ := Option.map_eq_some_iff.mp hw
  have hj : Contract.Starts Job.Together tr := Contract.Starts.of_actions hactions (by decide)
  obtain ⟨-, hdecides⟩ := first_payment_decides opening_launch hr hj "deposit"
  obtain ⟨late, x, early, p, rfl, hpays, -, -, hnames, -⟩ := hdecides k hk
  exact ⟨_, w, k, hr, hk, hname, x, by simp, p, hpays, hnames⟩

end MoneyWay
