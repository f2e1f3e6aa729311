import MoneyWay.Chargebacks
import MoneyWay.Hold

/-!
# What the hold is for

As long as the hold of a deposit runs, its transfer has not been tried: it waits, or a chargeback
has cancelled it. So a chargeback that comes in time stops the payout for good, whatever the
workers do before and after it.

## Main definitions

- `Untried` — the transfer waits, or has been cancelled before it was tried
- `withholding` — the contract: no transfer is tried within its hold, and a cancelled one stays as
  it is

## Main results

- `chargeback_within_hold` — a chargeback in time stops the payout
-/

set_option autoImplicit false

namespace MoneyWay

open Keyed ReadCommitted Python Sql

/-- The transfer of a deposit that no worker has tried. -/
def Untried (t : Transaction) (y : BingxTransfer) : Prop :=
  y.attemptNumber = 0 ∧ (t.status = .paid ∧ y.status = .pending ∨
    t.status = .chargeback ∧ y.status = .cancelled)

/-- A transfer in its hold is untried. -/
def File.InHold (now : Timestamp) (f : File) : Prop :=
  ∀ y ∈ f.transfer, now < y.scheduledAt → Untried f.transaction y

def Withheld (s : Shared signature) : Prop :=
  ∀ id f, s.db.file id = some f → f.InHold s.ext.now

/-- Cancelled transfers stay as they are. -/
def KeepsCancelled (d d' : Database) : Prop :=
  ∀ id y, d.transferOf id = some y → y.status = .cancelled → d'.transferOf id = some y

theorem KeepsCancelled.refl (d : Database) : KeepsCancelled d d := fun _ _ hy _ => hy

theorem KeepsCancelled.trans {d e f : Database} (h : KeepsCancelled d e) (h' : KeepsCancelled e f) :
    KeepsCancelled d f := fun id y hy hst => h' id y (h id y hy hst) hst

/-- The contract `agreeing` with both. -/
def withholding (unicode : Unicode) : Contract signature :=
  { agreeing unicode with
    inv := fun s => (agreeing unicode).inv s ∧ Withheld s
    guar := fun s s' => Guar s s' ∧ KeepsCancelled s.db s'.db }

namespace Untried

variable {t : Transaction} {y : BingxTransfer}

theorem not_onHold (h : Untried t y) : y.status ≠ .onHold := by
  rcases h.2 with ⟨-, hst⟩ | ⟨-, hst⟩ <;> simp [hst]

theorem of_eligible (h : Untried t y) (ht : t.status ∈ chargebackEligibleStatuses) :
    t.status = .paid ∧ y.status = .pending := by
  refine h.2.resolve_right fun hcharged => ?_
  simp [hcharged.1, chargebackEligibleStatuses] at ht

end Untried

/-! ## Commits -/

section Step

variable {unicode : Unicode} {x : Txn signature} {s : Shared signature} {id : String}

/-- What a session has read has held, and has not been later. -/
def SeenWithheld (x : Txn signature) (s : Shared signature) : Prop :=
  ∀ q ∈ x.snapshots, Inv q ∧ Agreed q ∧ Withheld q ∧ q.ext.now ≤ s.ext.now ∧ Persists q.db s.db

/-- A transfer that is in its hold now was in it when the session has read it. -/
theorem SeenWithheld.untried (hseen : SeenWithheld x s) {q : Shared signature}
    (hq : q ∈ x.snapshots) (hs : Inv s) {t t' : Transaction} {y z : BingxTransfer}
    {k k' : Option KycRecord}
    (hread : q.db.file id = some ⟨t', some z, k'⟩) (hfile : s.db.file id = some ⟨t, some y, k⟩)
    (hnow : s.ext.now < y.scheduledAt) : Untried t' z := by
  obtain ⟨hinv, -, hwithheld, hle, hpersists⟩ := hseen q hq
  obtain ⟨-, hz, -⟩ := Database.find?_of_file hread
  obtain ⟨-, hy, -⟩ := Database.find?_of_file hfile
  obtain ⟨hzmem, hzid⟩ := (Database.transferOf_eq_some hinv.sound).mp hz
  obtain ⟨hymem, hyid⟩ := (Database.transferOf_eq_some hs.sound).mp hy
  obtain ⟨z', hz', hsame⟩ := hpersists.transfer z.id z (Table.find?_of_mem hzmem)
  obtain rfl : z' = y :=
    hs.sound.single z' (Table.mem_of_find? hz') y hymem (by rw [hsame.transactionId, hzid, hyid])
  apply hwithheld id _ hread z rfl
  rw [← hsame.scheduledAt]
  exact lt_of_le_of_lt hle hnow

/-- The step lemma: a commit does not try a transfer in its hold. -/
theorem FileStep.inHold {j : Job} {v : Result} {f f' : Option File} (hs : Inv s)
    (hseen : SeenWithheld x s) (hstep : FileStep unicode x s id j v f f') (hfile : s.db.file id = f)
    (hf : ∀ g ∈ f, g.InHold s.ext.now) : ∀ g ∈ f', g.InHold s.ext.now := by
  intro g hg
  cases hstep with
  | kept => exact hf g hg
  | created | rejected =>
    cases hg
    intro y hy
    cases hy
  | paid =>
    cases hg
    intro y hy _
    cases hy
    exact ⟨rfl, .inl ⟨rfl, rfl⟩⟩
  | @cancelled p v t y k now q hid ht =>
    cases hg
    intro y' hy hnow
    cases hy
    have huntried : Untried t y := hf _ rfl y rfl hnow
    exact ⟨huntried.1, .inr ⟨rfl, rfl⟩⟩
  | @disputed p v t m m' k now q hid ht hq hread hleft =>
    cases hg
    intro y hy hnow
    obtain rfl : m = some y := hy
    -- the chargeback has read it as it was: waiting
    obtain ⟨-, hagreed, -⟩ := hseen q (List.mem_of_getElem? hq)
    obtain ⟨z, -, rfl, -⟩ := (hagreed _ _ hread).of_eligible ht
    have huntried := hseen.untried (List.mem_of_getElem? hq) hs hread hfile hnow
    exact absurd (huntried.of_eligible ht).2 (hleft z rfl).1
  | recorded _ hclaimed _ hset =>
    cases hg
    intro y' hy hnow
    cases hy
    rw [hset.samePayout.scheduledAt] at hnow
    exact absurd hclaimed.due (not_le_of_gt hnow)
  | @reset y v t k hid hst =>
    cases hg
    intro y' hy hnow
    cases hy
    have huntried : Untried t y := hf _ rfl y rfl hnow
    exact absurd hst huntried.not_onHold

/-- The step lemma: a commit leaves a cancelled transfer alone. -/
theorem FileStep.keepsCancelled {j : Job} {v : Result} {f f' : Option File} {y : BingxTransfer}
    (hstep : FileStep unicode x s id j v f f') (hy : f.bind File.transfer = some y)
    (hst : y.status = .cancelled) : f'.bind File.transfer = some y := by
  cases hstep with
  | kept => exact hy
  | created | rejected | paid => cases hy
  | cancelled _ _ _ _ hopen =>
    cases hy
    rcases hopen with h | h <;> rw [hst] at h <;> cases h
  | disputed => exact hy
  | recorded _ hclaimed =>
    cases hy
    obtain ⟨q, -, -, hclaim⟩ := hclaimed.claimed
    rcases status_of_claimable hclaim with h | h <;> rw [hst] at h <;> cases h
  | reset _ hheld =>
    cases hy
    rw [hst] at hheld
    cases hheld

end Step

/-- The transfer of a transaction that is there is the one in its file. -/
theorem Database.file_transfer {d : Database} {id : String} {y : BingxTransfer} (hd : Sound d)
    (hy : d.transferOf id = some y) : (d.file id).bind File.transfer = some y := by
  obtain ⟨hmem, rfl⟩ := (Database.transferOf_eq_some hd).mp hy
  obtain ⟨t, -, -, hfile⟩ := Database.file_of_transfer hd hmem
  rw [hfile]
  rfl

theorem Database.transferOf_of_file {d : Database} {id : String} {y : BingxTransfer}
    (hy : (d.file id).bind File.transfer = some y) : d.transferOf id = some y := by
  obtain ⟨f, hf, hfy⟩ := Option.bind_eq_some_iff.mp hy
  rw [(Database.find?_of_file hf).2.1, hfy]

theorem seenWithheld_of_past {unicode : Unicode} {x : Txn signature} {s : Shared signature}
    (h : (withholding unicode).Past x s) : SeenWithheld x s := by
  intro q hq
  obtain ⟨⟨⟨hinv, hagreed⟩, hwithheld⟩, hleads⟩ := h q hq
  refine ⟨hinv, hagreed, hwithheld, ?_, ?_⟩
  · exact hleads.lift (r := fun (s s' : Shared signature) => s.ext.now ≤ s'.ext.now)
      (fun _ => le_refl _) (fun _ _ _ => le_trans) fun _ _ (hg : Guar _ _ ∧ _) => hg.1.now
  · exact hleads.lift (r := fun s s' => Persists s.db s'.db) (fun s => Persists.refl s.db)
      (fun _ _ _ => Persists.trans) fun _ _ (hg : Guar _ _ ∧ _) => hg.1.db.persists

theorem withholding_valid (unicode : Unicode) :
    (withholding unicode).Valid (bank unicode) Job.Together := by
  refine (agreeing_valid unicode).refine (fun _ h => h) (withholding unicode) (fun _ h => h.1)
    (fun _ _ h => h.1) rfl rfl rfl ?_ ?_
  · intro s ext hs hl
    have hg : Guar s ⟨s.db, ext⟩ := hl.guar
    refine ⟨⟨hg, .refl _⟩, hl.inv', fun id f hf y hy hnow => ?_⟩
    exact hs.2 id f hf y hy (lt_of_le_of_lt hg.now hnow)
  · intro j v x s _ hs hpast ho hl
    have hseen := seenWithheld_of_past hpast
    have hstep (id : String) := Outcome.fileStep hs.1.1 (fun q hq => (hseen q hq).1) ho id
    refine ⟨⟨hl.guar, fun id y hy hst => ?_⟩, hl.inv', fun id f hf => ?_⟩
    · exact Database.transferOf_of_file
        ((hstep id).keepsCancelled (Database.file_transfer hs.1.1.sound hy) hst)
    · exact (hstep id).inHold hs.1.1 hseen rfl (fun g hg => hs.2 id g hg) f hf

/-! ## Histories -/

section

variable {unicode : Unicode} {start : Shared signature} {tr : List (Transition signature)}
  {w : World signature}

theorem Opening.withheld (hs : Opening start) : (withholding unicode).inv start := by
  refine ⟨⟨hs.inv, hs.agreed⟩, fun id f hf => ?_⟩
  obtain ⟨ht, -⟩ := Database.find?_of_file hf
  have hmem := Table.mem_of_find? ht
  simp [hs.transactions] at hmem

theorem run_withheld (hs : Opening start) (hr : Run (bank unicode) start tr w)
    (hj : Contract.Starts Job.Together tr) : Withheld w.shared :=
  ((withholding_valid unicode).run hs.withheld hr hj).inv.2

theorem run_leads (hs : Opening start) (hr : Run (bank unicode) start tr w)
    (hj : Contract.Starts Job.Together tr) {z : Transition signature} (hz : z ∈ tr) :
    (withholding unicode).Leads z.before.shared w.shared := by
  obtain ⟨late, early, rfl⟩ := List.append_of_mem hz
  have hafter := (withholding_valid unicode).leads hs.withheld hr hj
  rcases ((withholding_valid unicode).transition hs.withheld hr hj hz).2 with he | hlink
  · rw [← he]
    exact hafter
  · exact hlink.leads.trans hafter

/-- A transfer whose payout has been sent is due. -/
theorem due_of_sends (hs : Opening start) (hr : Run (bank unicode) start tr w)
    (hj : Contract.Starts Job.Together tr) {z : Transition signature} (hz : z ∈ tr) {j : Job}
    {q : TransferRequest} (hsends : Sends j q z.before.shared) {id : String}
    (hkey : q.idempotencyKey = idempotencyKey id) {y : BingxTransfer}
    (hy : w.shared.db.transferOf id = some y) : y.scheduledAt ≤ w.shared.ext.now := by
  obtain ⟨y₀, hy₀, rfl, hdue, -⟩ := hsends
  have hleads := run_leads hs hr hj hz
  obtain ⟨_, _, _, hearly, -⟩ := hr.cut_of_mem hz
  have hid₀ : y₀.transactionId = id := idempotencyKey_injective
    (((run_inv hs hearly).sound.idempotencyKey_eq hy₀).symm.trans hkey)
  have hpersists : Persists z.before.shared.db w.shared.db :=
    hleads.lift (r := fun s s' => Persists s.db s'.db) (fun s => Persists.refl s.db)
      (fun _ _ _ => Persists.trans) fun _ _ (hg : Guar _ _ ∧ _) => hg.1.db.persists
  have hclock : z.before.shared.ext.now ≤ w.shared.ext.now :=
    hleads.lift (r := fun (s s' : Shared signature) => s.ext.now ≤ s'.ext.now)
      (fun _ => le_refl _) (fun _ _ _ => le_trans) fun _ _ (hg : Guar _ _ ∧ _) => hg.1.now
  obtain ⟨y₁, hy₁, hsame⟩ := hpersists.transfer y₀.id y₀ (Table.find?_of_mem hy₀)
  have hsound := (run_inv hs hr).sound
  obtain ⟨hmem, hid⟩ := (Database.transferOf_eq_some hsound).mp hy
  obtain rfl : y₁ = y := hsound.single y₁ (Table.mem_of_find? hy₁) y hmem
    (by rw [hsame.transactionId, hid₀, hid])
  rw [hsame.scheduledAt]
  exact hdue.trans hclock

/-- What is on the way, or has been accepted, has been sent in a state that allowed it. -/
theorem exists_sends (hs : Opening start) (hr : Run (bank unicode) start tr w)
    (hj : Contract.Starts Job.Together tr) {q : TransferRequest}
    (hq : q ∈ w.shared.ext.wire ∨ q ∈ w.shared.ext.accepted) :
    ∃ z ∈ tr, ∃ j : Job, j.Together ∧ Sends j q z.before.shared := by
  refine (together_valid unicode).induction hs.inv
    (motive := fun tr w => q ∈ w.shared.ext.wire ∨ q ∈ w.shared.ext.accepted →
      ∃ z ∈ tr, ∃ j : Job, j.Together ∧ Sends j q z.before.shared) ?_ ?_ hr hj hq
  · intro h
    simp [World.idle, hs.wire, hs.accepted] at h
  · intro tr w a w' _ _ _ hchange ih hq
    have hold (h : q ∈ w.shared.ext.wire ∨ q ∈ w.shared.ext.accepted) :
        ∃ z ∈ (⟨w, a, w'⟩ :: tr : List (Transition signature)), ∃ j : Job, j.Together ∧
          Sends j q z.before.shared := by
      obtain ⟨z, hz, hsends⟩ := ih h
      exact ⟨z, List.mem_cons_of_mem _ hz, hsends⟩
    cases hchange with
    | silent _ he => exact hold (he ▸ hq)
    | commit _ _ _ _ _ he => exact hold (by rw [he] at hq; exact hq)
    | single _ hj ha => exact absurd ha (Job.Together.ne_true hj)
    | finished _ _ _ he => exact hold (he ▸ hq)
    | @send j r _ hj hsends he =>
      rw [he] at hq
      have hcases : q ∈ w.shared.ext.wire ++ [r] ∨ q ∈ w.shared.ext.accepted := hq
      rw [List.mem_append, List.mem_singleton] at hcases
      rcases hcases with (hwire | rfl) | haccepted
      · exact hold (.inl hwire)
      · exact ⟨_, List.mem_cons_self, j, hj, hsends⟩
      · exact hold (.inr haccepted)
    | event _ hevent he =>
      rw [he] at hq
      rcases hq with hwire | haccepted
      · exact hold (.inl (Bingx.wire_event hevent hwire))
      · rcases Bingx.accepted_event hevent haccepted with haccepted | ⟨-, hwire⟩
        · exact hold (.inr haccepted)
        · exact hold (.inl hwire)

variable {late early : List (Transition signature)} {x : Transition signature}
  {s : Session signature} {p : SBPChargebackWebhook} {t : Transaction} {y : BingxTransfer}

/-- The chargeback of a deposit in its hold leaves it charged back. -/
theorem CommitsChargeback.charged (hs : Opening start)
    (hr : Run (bank unicode) start (late ++ x :: early) w)
    (hj : Contract.Starts Job.Together (late ++ x :: early)) (h : CommitsChargeback x s p t y)
    (hhold : x.before.shared.ext.now < y.scheduledAt) :
    ∃ t', x.after.shared.db.transactions.find? p.transactionId = some t' ∧
      t'.status = .chargeback := by
  obtain ⟨⟨v, hc⟩, hjob, hfound, hrow, htr⟩ := h
  obtain ⟨hearly, -⟩ := hr.cut
  have hjearly : Contract.Starts Job.Together early := fun z hz => hj z (by simp [hz])
  have hfile : x.before.shared.db.file p.transactionId = some ⟨t, some y, _⟩ :=
    Database.file_eq hrow htr rfl
  have huntried : Untried t y := run_withheld hs hearly hjearly _ _ hfile y rfl hhold
  obtain ⟨ho, -, hafter, -⟩ := chargeback_commit hs hr hj hc hjob
  cases ho with
  | unmatched hq hnone => exact absurd hnone (hfound _ hq)
  | duplicate ht hst hpending =>
    refine ⟨_, ?_, hst⟩
    rw [hafter, hpending]
    exact ht
  | ineligible ht hst helig =>
    rw [hrow] at ht
    cases ht
    rcases huntried.2 with ⟨hpaid, -⟩ | ⟨hcharged, -⟩
    · simp [hpaid, chargebackEligibleStatuses] at helig
    · exact absurd hcharged hst
  | @charged d u q release id id' now now₁ now₂ now₃ ht _ _ _ _ _ _ hrel _ hpending =>
    obtain ⟨q', -, -, rfl, -⟩ := hrel
    refine ⟨d.transaction.dispute now, ?_, rfl⟩
    rw [hafter, hpending, ← Table.key_of_find? ht]
    exact find?_chargebackWrites

/-- If a chargeback commits before the hold of the deposit is over, counted from the moment its
paid webhook was handled, then no request for the payout has been sent before and none is sent
after it, so BingX accepts none; the transfer stays cancelled, and the deposit charged back. -/
theorem chargeback_within_hold (hs : Opening start)
    (hr : Run (bank unicode) start (late ++ x :: early) w)
    (hj : Contract.Starts Job.Together (late ++ x :: early)) (h : CommitsChargeback x s p t y)
    (hhold : x.before.shared.ext.now < y.scheduledAt) :
    (∃ z ∈ early, ScheduledBy y z) ∧
    (∃ t', w.shared.db.transactions.find? p.transactionId = some t' ∧ t'.status = .chargeback) ∧
    (∃ y', w.shared.db.transferOf p.transactionId = some y' ∧ y.SamePayout y' ∧
      y'.status = .cancelled ∧ y'.attemptNumber = 0) ∧
    (∀ z ∈ late ++ x :: early, ∀ q, z.request? = some q →
      q.idempotencyKey ≠ idempotencyKey p.transactionId) ∧
    ∀ q, q ∈ w.shared.ext.wire ∨ q ∈ w.shared.ext.accepted →
      q.idempotencyKey ≠ idempotencyKey p.transactionId := by
  obtain ⟨hearly, hstep⟩ := hr.cut
  have hjearly : Contract.Starts Job.Together early := fun z hz => hj z (by simp [hz])
  have hjnow : Contract.Starts Job.Together (x :: early) := fun z hz => hj z (by simp_all)
  have hbefore := run_inv hs hearly
  have hafter := run_inv hs (hearly.snoc hstep)
  obtain ⟨hymem, hyid⟩ := (Database.transferOf_eq_some hbefore.sound).mp h.transfer
  -- the transfer has been cancelled before it was tried
  obtain ⟨t', ht', hcharged⟩ := h.charged hs hr hj hhold
  obtain ⟨y', hy', hsame⟩ := (run_evolves hs hr (x := x) (by simp)).transfer y.id y
    (Table.find?_of_mem hymem)
  have htr : x.after.shared.db.transferOf p.transactionId = some y' :=
    (Database.transferOf_eq_some hafter.sound).mpr
      ⟨Table.mem_of_find? hy', hsame.transactionId.trans hyid⟩
  obtain ⟨v, hc⟩ := h.commits
  obtain ⟨-, -, hshared, -⟩ := chargeback_commit hs hr hj hc h.job
  have huntried : Untried t' y' := by
    refine run_withheld hs (hearly.snoc hstep) hjnow _ _ (Database.file_eq ht' htr rfl) y' rfl ?_
    rw [hsame.scheduledAt, hshared]
    exact hhold
  have hcancelled : y'.status = .cancelled := by
    refine (huntried.2.resolve_left fun hpaid => ?_).2
    rw [hcharged] at hpaid
    cases hpaid.1
  -- from here on it stays as it is
  have hstays {late' : List (Transition signature)} {w' : World signature}
      (hr' : Run (bank unicode) start (late' ++ x :: early) w')
      (hj' : Contract.Starts Job.Together (late' ++ x :: early)) :
      w'.shared.db.transferOf p.transactionId = some y' :=
    ((withholding_valid unicode).leads hs.withheld hr' hj').lift
      (r := fun s s' => KeepsCancelled s.db s'.db) (fun _ => .refl _) (fun _ _ _ => .trans)
      (fun _ _ (hg : _ ∧ KeepsCancelled _ _) => hg.2) _ _ htr hcancelled
  have hnever {z : Transition signature} (hz : z ∈ late ++ x :: early) {j : Job}
      (hjob : j.Together) {q : TransferRequest} (hsends : Sends j q z.before.shared) :
      q.idempotencyKey ≠ idempotencyKey p.transactionId := by
    intro hkey
    rcases List.mem_append.mp hz with hlate | hfirst
    · -- later it would have to be open
      obtain ⟨y₀, hy₀, rfl, -, hopen⟩ := hsends
      obtain ⟨l, l', rfl⟩ := List.append_of_mem hlate
      rw [List.append_assoc, List.cons_append] at hr hj
      obtain ⟨hrun, -⟩ := hr.cut
      have hz₀ := (run_inv hs hrun).sound
      obtain ⟨hmem, hid⟩ := (Database.transferOf_eq_some hz₀).mp
        (hstays hrun fun z hz => hj z (List.mem_append_right _ (List.mem_cons_of_mem _ hz)))
      have hid₀ : y₀.transactionId = p.transactionId :=
        idempotencyKey_injective ((hz₀.idempotencyKey_eq hy₀).symm.trans hkey)
      obtain rfl : y₀ = y' := hz₀.single y₀ hy₀ y' hmem (hid₀.trans hid.symm)
      rcases hopen hjob with hst | hst <;> rw [hcancelled] at hst <;> cases hst
    · -- before, it would have to be due
      have hdue := due_of_sends hs (hearly.snoc hstep) hjnow hfirst hsends hkey htr
      rw [hsame.scheduledAt, hshared] at hdue
      exact absurd hdue (not_le_of_gt hhold)
  refine ⟨exists_scheduledBy hs hearly y hymem, ?_, ⟨y', hstays hr hj, hsame, hcancelled,
    huntried.1⟩, fun z hz q hq => ?_, fun q hq => ?_⟩
  · obtain ⟨u, hu, hst⟩ := (run_persists hs hr).absorbing ht' (.inr hcharged)
    exact ⟨u, hu, hst.trans hcharged⟩
  · obtain ⟨j, hjob, hsends⟩ := (together_valid unicode).sends hs.inv hr hj hz hq
    exact hnever hz hjob hsends
  · obtain ⟨z, hz, j, hjob, hsends⟩ := exists_sends hs hr hj hq
    exact hnever hz hjob hsends

end

/-! ### A chargeback within a quarter of an hour -/

/-- The deposit is paid with a hold of a quarter of an hour. -/
def paidWithHold : List (Action signature) :=
  openDeposit ++ commit 0 :: .start 0 (.sbpPaymentWebhook alicePayment 15) :: runs 0 6 ++
    .give 0 "payout" :: runs 0 4 ++ [commit 0]

/-- A worker looks for something to do when the hold is over, and finds nothing. -/
def lookAfterHold : List (Action signature) :=
  .event (.tick 900000000) :: .start 0 (.processTransfer worker) :: runs 0 2 ++ [commit 0]

theorem chargeback_within_hold_quarter : ∃ tr w, Run (bank .ascii) launch tr w ∧
    w.shared.ext.now = 900000000 ∧ statuses w = (some .chargeback, some .cancelled) ∧
    ∀ z ∈ tr, ∀ q, z.request? = some q → q.idempotencyKey ≠ payout.idempotencyKey := by
  obtain ⟨late, x, early, w, hr, hactions, -, hx, hw⟩ := Run.exists_of_trace_cons (bank .ascii)
    launch (paidWithHold ++ disputeDeposit 0 ++ blacklistDeposit 0) (commit 0) lookAfterHold
    (fun x => (endOfChargeback x).map fun e => (e.2.1.transactionId,
      decide (x.before.shared.ext.now < e.2.2.2.scheduledAt)))
    (fun _ w => (w.shared.ext.now, statuses w))
    (b := some ("deposit", true)) (c := (900000000, some .chargeback, some .cancelled)) (by decide)
  obtain ⟨⟨s, p, t, y⟩, hend, he⟩ := Option.map_eq_some_iff.mp hx
  obtain ⟨hid, hnow⟩ := Prod.mk.inj he
  obtain ⟨hclock, hst⟩ := Prod.mk.inj hw
  have hj : Contract.Starts Job.Together (late ++ x :: early) :=
    Contract.Starts.of_actions hactions (by decide)
  obtain ⟨-, -, -, hnone, -⟩ := chargeback_within_hold opening_launch hr hj
    (commitsChargeback_of_eq hend) (of_decide_eq_true hnow)
  have hkey : payout.idempotencyKey = idempotencyKey p.transactionId := by
    rw [show p.transactionId = "deposit" from hid]
    rfl
  refine ⟨_, w, hr, hclock, hst, fun z hz q hq => ?_⟩
  rw [hkey]
  exact hnone z hz q hq

end MoneyWay
