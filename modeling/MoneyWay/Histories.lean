import MoneyWay.Files

/-!
# Histories of the payment flow

A history starts before the first deposit and runs any jobs side by side, with what
happens at BingX, in any order; sessions may be rolled back at any point. Here is what
holds in every history.
-/

set_option autoImplicit false

namespace MoneyWay

open Keyed ReadCommitted Python Sql

/-- There are users, promo codes and a blacklist, but no deposits yet, and no request
has been sent to BingX. -/
structure Opening (s : Shared signature) : Prop where
  transactions : s.db.transactions.rows = []
  kycRecords : s.db.kycRecords.rows = []
  bingxTransfers : s.db.bingxTransfers.rows = []
  wire : s.ext.wire = []
  accepted : s.ext.accepted = []

theorem Opening.inv {s : Shared signature} (h : Opening s) : Inv s :=
  ⟨⟨by simp [h.bingxTransfers], by simp [h.bingxTransfers], by simp [h.kycRecords],
    by simp [h.transactions]⟩, ⟨by simp [h.wire], by simp [h.accepted], by simp [h.accepted]⟩,
    by simp [h.bingxTransfers]⟩

theorem together_valid (unicode : Unicode) :
    (payments unicode).Valid (bank unicode) Job.Together :=
  (payments_valid unicode).mono fun _ _ => trivial

section

variable {unicode : Unicode} {start : Shared signature} {tr : List (Transition signature)}
  {w : World signature}

theorem starts_any (tr : List (Transition signature)) : Contract.Starts (fun _ => True) tr :=
  fun _ _ _ _ _ => trivial

theorem run_inv (hs : Opening start) (hr : Run (bank unicode) start tr w) : Inv w.shared :=
  ((payments_valid unicode).run hs.inv hr (starts_any tr)).inv

/-- Every transition moves transactions and transfers on, and removes none. -/
theorem run_evolves (hs : Opening start) (hr : Run (bank unicode) start tr w)
    {x : Transition signature} (hx : x ∈ tr) : Evolves x.before.shared.db x.after.shared.db := by
  rcases ((payments_valid unicode).transition hs.inv hr (starts_any tr) hx).2 with he | hl
  · rw [he]
    exact .refl _
  · exact hl.guar.db

/-- What persists up to the end of a history. -/
theorem run_persists (hs : Opening start) {late early : List (Transition signature)}
    {x : Transition signature} (hr : Run (bank unicode) start (late ++ x :: early) w) :
    Persists x.after.shared.db w.shared.db :=
  ((payments_valid unicode).leads hs.inv hr (starts_any _)).lift
    (r := fun s s' => Persists s.db s'.db) (fun s => Persists.refl s.db)
    (fun _ _ _ => Persists.trans) fun _ _ (hg : Guar _ _) => hg.db.persists

/-- What a transition of a history of whole transactions does to a file: nothing, or what
the commit of one session does. -/
theorem file_change {P : Contract signature} (hpost : P.post = Outcome unicode)
    (hinv : ∀ s, P.inv s → Inv s) {x : Transition signature} (hs : P.inv x.before.shared)
    (h : P.Change (bank unicode) Job.Together x) (id : String) :
    (∀ s v, ¬ x.Commits s v) ∧ x.after.shared.db.file id = x.before.shared.db.file id ∨
      ∃ s v, x.Commits s v ∧ s.job.Together ∧ P.Past s.txn x.before.shared ∧
        FileStep unicode s.txn x.before.shared id s.job v (x.before.shared.db.file id)
          (x.after.shared.db.file id) := by
  rcases h.together fun _ hj => hj with ⟨hne, he⟩ | ⟨s, v, hc, hj, ho, hpast, he⟩
  · exact .inl ⟨hne, by rw [he]⟩
  · rw [hpost] at ho
    have hstep := Outcome.fileStep (hinv _ hs) (fun q hq => hinv q (hpast q hq).1) ho id
    exact .inr ⟨s, v, hc, hj, hpast, by rw [he]; exact hstep⟩

end

/-! ## The operations of a job, one after the other -/

/-- One user, and nothing else. -/
def alice : User where
  id := "alice"
  email := "alice@example.com"
  bingxUid := none

def launch : Shared signature where
  db := {
    users := (Table.empty _).put alice
    promoCodes := .empty _
    transactions := .empty _
    kycRecords := .empty _
    bingxTransfers := .empty _
    blacklist := .empty _
    fraudAlerts := []
    auditLog := []
    notifications := [] }
  ext := { now := 0, wire := [], accepted := [] }

theorem opening_launch : Opening launch := ⟨rfl, rfl, rfl, rfl, rfl⟩

def depositSettings : Settings where
  depositMinRub := .ofNat 100
  depositMaxRub := .ofNat 100000
  depositCommissionPercent := .ofNat 5
  rubUsdtRate := .ofNat 95

def aliceDeposit : DepositCreateRequest where
  user := alice
  amountRub := .ofNat 5000
  bingxUid := "12345678"
  promoCode := none
  ipAddress := none
  deviceFingerprint := none
  userAgent := none
  amountRub_kopecks := ⟨500000, by decide, by decide, by decide⟩

def alicePayment : SBPPaymentWebhook where
  transactionId := "deposit"
  status := .paid
  sbpPaymentId := some "sbp"
  payerName := some "Alice"
  payerPhone := some "+79990000000"
  amountRub := some (.ofNat 5000)
  amountRub_kopecks := by
    intro a ha
    cases ha
    exact ⟨500000, by decide, by decide, by decide⟩

def aliceChargeback : SBPChargebackWebhook where
  transactionId := "deposit"
  reason := "chargeback"

def worker : WorkerSettings where
  staleSeconds := 0
  retryBackoffSeconds := 0

/-- Session `i` runs `n` operations. -/
def runs (i n : ℕ) : List (Action signature) := List.replicate n (.run i)

/-- A deposit is created under the id `deposit`. -/
def openDeposit : List (Action signature) :=
  .start 0 (.createDeposit depositSettings aliceDeposit) :: runs 0 3 ++ .give 0 "deposit" ::
    runs 0 3

/-- The deposit is paid; its payout task gets the id `payout`. -/
def payDeposit : List (Action signature) :=
  .start 0 (.sbpPaymentWebhook alicePayment 0) :: runs 0 6 ++ .give 0 "payout" :: runs 0 4

/-- An answer of BingX with an error code. -/
def refusal (msg : String) : Answer :=
  .response ⟨200, "", .ok (.obj [("code", .int 100400), ("msg", .str msg)])⟩

def acceptance : Answer :=
  .response ⟨200, "", .ok (.obj [("code", .int 0), ("data", .obj [("id", .str "bingx")])])⟩

/-- A worker claims the payout and sends it. -/
def sendPayout (i : ℕ) : List (Action signature) :=
  .start i (.processTransfer worker) :: runs i 3

/-- The request for the payout. -/
def payout : TransferRequest := ⟨"12345678", 5000000000, "bingx-transfer:deposit"⟩

/-- The worker records an answer in `n` operations. -/
def recordAnswer (i : ℕ) (a : Answer) (n : ℕ) : List (Action signature) :=
  .answer i a :: runs i n

/-- The chargeback of the deposit, up to its `UPDATE` of the transfers. -/
def disputeDeposit (i : ℕ) : List (Action signature) :=
  .start i (.sbpChargebackWebhook aliceChargeback) :: runs i 4

/-- The rest of the chargeback. -/
def blacklistDeposit (i : ℕ) : List (Action signature) :=
  runs i 1 ++ .give i "email" :: runs i 2 ++ .give i "uid" :: runs i 5

/-- A session commits. -/
def commit (i : ℕ) : Action signature := .run i

def resetPayout (i : ℕ) : List (Action signature) := [.start i (.resetOnHold "payout"), .run i]

/-- The deposit is paid. -/
def paidDeposit : List (Action signature) :=
  openDeposit ++ commit 0 :: payDeposit ++ [commit 0]

/-- The payout of the paid deposit is put on hold. -/
def heldDeposit : List (Action signature) :=
  paidDeposit ++ sendPayout 0 ++ recordAnswer 0 (refusal "insufficient balance") 5 ++ [commit 0]

/-- The statuses of the deposit and of its payout. -/
def statuses (w : World signature) : Option TransactionStatus × Option TransferStatus :=
  ((w.shared.db.transactions.find? "deposit").map (·.status),
    (w.shared.db.bingxTransfers.find? "payout").map (·.status))

end MoneyWay
