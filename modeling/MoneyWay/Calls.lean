import Mathlib.Algebra.Order.BigOperators.Group.List
import Mathlib.Algebra.Order.Group.Nat
import MoneyWay.Sequential
import MoneyWay.Library.ReadCommitted.Yields
import MoneyWay.Routes

/-!
# Calls of the worker

What a call of `_process_in_transaction` that returns `True` does to the tables. It uses up an
attempt of the transfer it has claimed, and the last attempt takes the transfer out of the queue,
so there are only so many of these calls, whatever others do in between short of adding transfers
or putting them back into the queue.

## Main definitions

- `ProcessStep` — a call, with what it has found and left
- `Settles` — what a call that returns `True` does
- `Meanwhile`, `Calls` — successive calls, and what others may do between them

## Main results

- `process_settles` — a call that ends by a value has found nothing, or settles a transfer
- `Calls.length_le` — how many calls there are
-/

set_option autoImplicit false

namespace MoneyWay

open Keyed ReadCommitted Python Prog Sql

/-! ## Calls -/

/-- One call of `_process_in_transaction`: how its session has ended, and its transaction. -/
structure ProcessStep where
  before : Shared signature
  result : Option (Except Error Result)
  txn : Txn signature
  after : Shared signature

namespace ProcessStep

/-- The transfer the session has claimed: its first write is the claim. -/
def claimed? (p : ProcessStep) : Option String :=
  match p.txn.pending.head? with
  | some (.bingxTransfer y) => some y.id
  | _ => none

/-- The call has raised, or has lost its connection. -/
def Raises (p : ProcessStep) : Prop := ∀ v, p.result ≠ some (.ok v)

/-- The call has processed this transfer and returned `True`. -/
def Processes (p : ProcessStep) (id : String) : Prop :=
  p.claimed? = some id ∧ p.result = some (.ok (.processed true))

end ProcessStep

section

variable (staleSeconds retryBackoffSeconds : ℤ)

/-- The session of `_process_in_transaction`. -/
def processInTransaction : Job := .processTransfer { staleSeconds, retryBackoffSeconds }

end

theorem claimed?_of_pending {p : ProcessStep} {y : BingxTransfer} {now : Timestamp}
    {ws : List Write} (h : p.txn.pending = .bingxTransfer (claim now y) :: ws) :
    p.claimed? = some y.id := by
  rw [ProcessStep.claimed?, h]
  rfl

/-! ## What a call records -/

/-- The transfer a write stores. -/
def Write.bingxTransfer? : Write → Option BingxTransfer
  | .bingxTransfer y => some y
  | _ => none

theorem Database.bingxTransfers_replay_eq (ws : List Write) (d : Database) :
    (replay ws d).bingxTransfers =
      (ws.filterMap Write.bingxTransfer?).foldl Table.put d.bingxTransfers := by
  induction ws generalizing d with
  | nil => rfl
  | cons w ws ih =>
    rw [replay_cons, ih]
    cases w <;> rfl

/-- What a call records of the transfer it has claimed. -/
structure Records (y y' : BingxTransfer) : Prop where
  id : y'.id = y.id
  attemptNumber : y'.attemptNumber = y.attemptNumber + 1
  status : y'.status ≠ .processing
  retried : y'.status = .pending → y.attemptNumber + 1 < maxTransferAttempts

/-- A transfer that has left the queue. -/
theorem Records.settled {y y' : BingxTransfer} (st : TransferStatus) (hid : y'.id = y.id)
    (hattempt : y'.attemptNumber = y.attemptNumber + 1) (hstatus : y'.status = st)
    (hprocessing : st ≠ .processing) (hpending : st ≠ .pending) : Records y y' where
  id := hid
  attemptNumber := hattempt
  status := fun he => hprocessing (hstatus.symm.trans he)
  retried := fun he => absurd (hstatus.symm.trans he) hpending

/-- A transfer that goes back to the queue. -/
theorem Records.requeued {y y' : BingxTransfer} (hid : y'.id = y.id)
    (hattempt : y'.attemptNumber = y.attemptNumber + 1) (hstatus : y'.status = .pending)
    (hless : y.attemptNumber + 1 < maxTransferAttempts) : Records y y' where
  id := hid
  attemptNumber := hattempt
  status := fun he => TransferStatus.noConfusion (hstatus.symm.trans he)
  retried := fun _ => hless

/-- The write is to another table than the transfers, and if to the transactions, then to the one
that is paid out. -/
structure Write.Beside (y : BingxTransfer) (w : Write) : Prop where
  transfer : w.bingxTransfer? = none
  transaction : ∀ t, w = .transaction t → t.id = y.transactionId

theorem Write.Beside.of_transaction {y : BingxTransfer} {t : Transaction}
    (h : t.id = y.transactionId) : Write.Beside y (.transaction t) where
  transfer := rfl
  transaction := by
    intro t' he
    cases he
    exact h

theorem Write.Beside.of_audit (y : BingxTransfer) (e : AuditEntry) : Write.Beside y (.audit e) where
  transfer := rfl
  transaction := fun _ he => by cases he

theorem Write.Beside.of_fraudAlert (y : BingxTransfer) (a : FraudAlert) :
    Write.Beside y (.fraudAlert a) where
  transfer := rfl
  transaction := fun _ he => by cases he

/-- The writes of a call that has processed a transfer of the queue. -/
def Processed (d : Database) (ws : List Write) : Prop :=
  ∃ now y y' rest, y ∈ d.bingxTransfers.rows ∧ (y.status = .pending ∨ y.status = .processing) ∧
    Records y y' ∧ ws = .bingxTransfer (claim now y) :: .bingxTransfer y' :: rest ∧
    ∀ w ∈ rest, w.Beside y

section

variable {unicode : Unicode} {d : Database} {y : BingxTransfer} {now : Timestamp}

/-- The first statement of every outcome settles the claimed transfer, and what follows it
leaves the transfers alone. -/
theorem yields_settle {texts : List (ℕ × Option String)} {response : Json}
    {set : BingxTransfer → BingxTransfer} {rest : Handler Unit} (hy : y ∈ d.bingxTransfers.rows)
    (hst : y.status = .pending ∨ y.status = .processing) (hset : Records y (set (claim now y)))
    (hrest : rest.Writes (fun _ => True) (Write.Beside y)) :
    (exec (updateTransfer (returning (claim now y)).id texts (some response) (fun _ => true)
      set) >>= fun _ => rest).Yields (· = d) (fun _ ws => Processed d ws)
        [.bingxTransfer (claim now y)] := by
  refine .bind (.exec fun d' hd locked eff hq => ?_)
  have hrow : (replay [.bingxTransfer (claim now y)] d').bingxTransfers.find?
      (returning (claim now y)).id = some (claim now y) :=
    Table.find?_put_self _ (claim now y)
  have heff : eff = { value := (), writes := [.bingxTransfer (set (claim now y))] } :=
    updateTransfer_ok hrow hq
  rw [heff]
  refine (hrest.yields _).mono fun _ ws hws => ?_
  obtain ⟨more, rfl, hkind⟩ := hws
  exact ⟨now, y, set (claim now y), more, hy, hst, hset, rfl, hkind⟩

theorem yields_follow {route : Route} (hy : y ∈ d.bingxTransfers.rows)
    (hst : y.status = .pending ∨ y.status = .processing) :
    (follow (returning (claim now y)) route).Yields (· = d) (fun _ ws => Processed d ws)
      [.bingxTransfer (claim now y)] := by
  have haudit {eventType : EventType} {payload : Details} :
      (writeAuditLog eventType none (some y.transactionId) payload none none none).Writes
        (fun _ => True) (Write.Beside y) :=
    writes_writeAuditLog fun e => .of_audit y e
  cases route with
  | complete bingxTransferId response =>
    refine .now fun now' => yields_settle hy hst
      (.settled .completed rfl rfl rfl (by decide) (by decide)) ?_
    exact Prog.Writes.bind (writes_updatePaid fun _ ht => .of_transaction ht) fun _ => haudit
  | fail payload =>
    refine .now fun now' => yields_settle hy hst
      (.settled .failed rfl rfl rfl (by decide) (by decide)) ?_
    exact Prog.Writes.bind (writes_updatePaid fun _ ht => .of_transaction ht) fun _ => haudit
  | hold payload =>
    refine .now fun now' => yields_settle hy hst
      (.settled .onHold rfl rfl rfl (by decide) (by decide)) ?_
    exact Prog.Writes.bind (writes_insertFraudAlert (.of_fraudAlert y _)) fun _ => haudit
  | retry payload =>
    by_cases hless : (claim now y).attemptNumber < maxTransferAttempts
    · have hretry : (returning (claim now y)).attemptNumber < maxTransferAttempts := hless
      simp only [follow, retryOrEscalateTransfer, hretry, if_true]
      refine .now fun now' => yields_settle hy hst (.requeued rfl rfl rfl hless) ?_
      trivial
    · have hlast : ¬ (returning (claim now y)).attemptNumber < maxTransferAttempts := hless
      simp only [follow, retryOrEscalateTransfer, hlast, if_false, if_true]
      refine .now fun now' => yields_settle hy hst
        (.settled .error rfl rfl rfl (by decide) (by decide)) ?_
      exact Prog.Writes.now fun now'' =>
        Prog.Writes.bind (writes_updatePaid fun _ ht => .of_transaction ht) fun _ => haudit
  | uncaught => exact trivial

theorem yields_processInTransaction {staleSeconds retryBackoffSeconds : ℤ} :
    (program unicode (processInTransaction staleSeconds retryBackoffSeconds)).Yields (· = d)
      (fun v ws => v = .processed false ∧ ws = [] ∨ v = .processed true ∧ Processed d ws) [] := by
  refine .bind (.bind (.now fun now => .exec fun d' hd locked eff hq => ?_))
  subst hd
  cases updateNextTransfer_ok hq with
  | inl hnone =>
    rw [hnone]
    exact .inl ⟨rfl, rfl⟩
  | inr hclaimed =>
    obtain ⟨y, hy, hclaim, rfl⟩ := hclaimed
    refine .bind ?_
    rw [createInternalTransfer]
    split
    · trivial
    · intro a
      change Prog.Yields _ _ (recordOutcome unicode (returning (claim now y))
        (readAnswer unicode a) >>= fun _ => pure true) _
      refine .bind ?_
      rw [recordOutcome_eq]
      exact (yields_follow hy (status_of_claimable hclaim)).mono fun _ ws hws => .inr ⟨rfl, hws⟩

variable {staleSeconds retryBackoffSeconds : ℤ} {s s' : Shared signature} {x : Txn signature}

/-- What a call that returns `True` does to the queue. -/
structure Settles (s : Shared signature) (y y' : BingxTransfer) (s' : Shared signature) :
    Prop where
  row : y ∈ s.db.bingxTransfers.rows
  status : y.status = .pending ∨ y.status = .processing
  records : Records y y'
  transfers : ∃ now, s'.db.bingxTransfers = (s.db.bingxTransfers.put (claim now y)).put y'
  transactions : ∀ id, id ≠ y.transactionId →
    s'.db.transactions.find? id = s.db.transactions.find? id

/-- A call that ends by a value has found nothing, or has settled a transfer of the queue. -/
theorem process_settles {v : Result}
    (h : Ends (bank unicode) (processInTransaction staleSeconds retryBackoffSeconds) s
      (some (.ok v)) x s') :
    v = .processed false ∧ x.pending = [] ∨ v = .processed true ∧
      ∃ y y' now ws, x.pending = .bingxTransfer (claim now y) :: ws ∧ Settles s y y' s' := by
  obtain ⟨ha⟩ := h
  cases yields_processInTransaction.of_alone (x := {}) rfl ha _ rfl with
  | inl hidle => exact .inl hidle
  | inr hprocessed =>
    obtain ⟨hv, now, y, y', rest, hy, hst, hrecords, hpending, hrest⟩ := hprocessed
    have hdb := ha.db_eq
    refine .inr ⟨hv, y, y', now, _, hpending, hy, hst, hrecords, ⟨now, ?_⟩, fun id hid => ?_⟩
    · have hnil : rest.filterMap Write.bingxTransfer? = [] :=
        List.filterMap_eq_nil_iff.mpr fun w hw => (hrest w hw).transfer
      have htwo : List.filterMap Write.bingxTransfer?
          (.bingxTransfer (claim now y) :: .bingxTransfer y' :: rest) = [claim now y, y'] :=
        congrArg (claim now y :: y' :: ·) hnil
      show Database.bingxTransfers (replay x.pending _) = _
      rw [hdb, Database.bingxTransfers_replay_eq, hpending, htwo]
      rfl
    · show Table.find? (Database.transactions (replay x.pending _)) id = _
      rw [hdb]
      refine Database.row_transaction (Database.row_untouched fun w hw ht => ?_)
      cases w with
      | transaction t =>
        have htid : t.id = id := by simpa using ht
        have hmem : .transaction t ∈ rest := by simpa [hpending] using hw
        exact hid (htid.symm.trans ((hrest _ hmem).transaction t rfl))
      | _ => cases ht

/-- A call that returns `True` settles the transfer it has claimed. -/
theorem exists_settles
    (h : Ends (bank unicode) (processInTransaction staleSeconds retryBackoffSeconds) s
      (some (.ok (.processed true))) x s') :
    ∃ y y', (⟨s, some (.ok (.processed true)), x, s'⟩ : ProcessStep).claimed? = some y.id ∧
      Settles s y y' s' := by
  cases process_settles h with
  | inl hidle => cases hidle.1
  | inr htrue =>
    obtain ⟨-, y, y', now, ws, hpending, hsettles⟩ := htrue
    exact ⟨y, y', claimed?_of_pending hpending, hsettles⟩

namespace Settles

variable {y' : BingxTransfer}

theorem find?_ne (h : Settles s y y' s') {id : String} (hne : id ≠ y.id) :
    s'.db.bingxTransfers.find? id = s.db.bingxTransfers.find? id := by
  obtain ⟨now, he⟩ := h.transfers
  have hclaim : (claim now y).id ≠ id := hne.symm
  have hid : y'.id ≠ id := by
    rw [h.records.id]
    exact hne.symm
  rw [he, Table.find?_put_ne _ hid, Table.find?_put_ne _ hclaim]

theorem find?_self (h : Settles s y y' s') : s'.db.bingxTransfers.find? y.id = some y' := by
  obtain ⟨now, he⟩ := h.transfers
  rw [he, ← h.records.id]
  exact Table.find?_put_self _ y'

theorem keys (h : Settles s y y' s') :
    s'.db.bingxTransfers.rows.map BingxTransfer.id =
      s.db.bingxTransfers.rows.map BingxTransfer.id := by
  obtain ⟨now, he⟩ := h.transfers
  have hrow : s.db.bingxTransfers.find? (claim now y).id = some y := Table.find?_of_mem h.row
  have hclaim : (s.db.bingxTransfers.put (claim now y)).find? y'.id = some (claim now y) := by
    rw [h.records.id]
    exact Table.find?_put_self _ (claim now y)
  rw [he, Table.keys_put_old hclaim, Table.keys_put_old hrow]

end Settles

end

/-! ## What is left to do -/

/-- How often the transfer can still be processed. -/
def BingxTransfer.attemptsLeft (y : BingxTransfer) : ℕ :=
  if y.status = .pending ∨ y.status = .processing then max 1 (maxTransferAttempts - y.attemptNumber)
  else 0

/-- How often the transfer with this id can still be processed. -/
def Database.left (d : Database) (id : String) : ℕ :=
  (d.bingxTransfers.find? id).elim 0 BingxTransfer.attemptsLeft

/-- The transfer with this id is not being processed. -/
def Database.Parked (d : Database) (id : String) : Prop :=
  ∀ y, d.bingxTransfers.find? id = some y → y.status ≠ .processing

theorem Records.attemptsLeft {y y' : BingxTransfer} (h : Records y y')
    (hst : y.status = .pending ∨ y.status = .processing) : y'.attemptsLeft < y.attemptsLeft := by
  rw [BingxTransfer.attemptsLeft, BingxTransfer.attemptsLeft, if_pos hst]
  split
  · next hst' =>
    have hretried : y.attemptNumber + 1 < maxTransferAttempts :=
      h.retried (hst'.resolve_right h.status)
    rw [h.attemptNumber]
    omega
  · omega

/-- Between two calls others may do anything, whatever the clock shows then, but they neither
add transfers nor reset them. -/
def Meanwhile (s s' : Shared signature) : Prop :=
  ∀ y' ∈ s'.db.bingxTransfers.rows, ∃ y ∈ s.db.bingxTransfers.rows, y.id = y'.id ∧
    y.attemptNumber ≤ y'.attemptNumber ∧
    (y'.status = .pending → y.status = .pending ∨ y.status = .processing) ∧
    (y'.status = .processing → y.status = .processing)

section

variable {s s' : Shared signature} {id : String}

theorem Meanwhile.refl (s : Shared signature) : Meanwhile s s :=
  fun y hy => ⟨y, hy, rfl, Nat.le_refl _, fun h => .inl h, fun h => h⟩

theorem Meanwhile.left_le (h : Meanwhile s s') (id : String) : s'.db.left id ≤ s.db.left id := by
  rw [Database.left]
  cases hfind' : s'.db.bingxTransfers.find? id with
  | none => exact Nat.zero_le _
  | some y' =>
    obtain ⟨y, hy, hid, hattempts, hpending, hprocessing⟩ := h y' (Table.mem_of_find? hfind')
    have hfind : s.db.bingxTransfers.find? id = some y := by
      rw [← Table.key_of_find? hfind']
      show s.db.bingxTransfers.find? y'.id = some y
      rw [← hid]
      exact Table.find?_of_mem hy
    rw [Database.left, hfind]
    show y'.attemptsLeft ≤ y.attemptsLeft
    rw [BingxTransfer.attemptsLeft, BingxTransfer.attemptsLeft]
    split
    · next hst' =>
      have hst : y.status = .pending ∨ y.status = .processing := by
        cases hst' with
        | inl hp => exact hpending hp
        | inr hp => exact .inr (hprocessing hp)
      rw [if_pos hst]
      omega
    · exact Nat.zero_le _

theorem Meanwhile.parked (h : Meanwhile s s') (hp : s.db.Parked id) : s'.db.Parked id := by
  intro y' hy' hst'
  obtain ⟨y, hy, hid, -, -, hprocessing⟩ := h y' (Table.mem_of_find? hy')
  have hkey : y.id = id := hid.trans (Table.key_of_find? hy')
  refine hp y ?_ (hprocessing hst')
  rw [← hkey]
  exact Table.find?_of_mem hy

/-! ## Successive calls -/

variable (unicode : Unicode) (staleSeconds retryBackoffSeconds : ℤ)

/-- The calls of a drain that have returned `True`, and what others have done in between. -/
inductive Calls : Shared signature → List ProcessStep → Shared signature → Prop
  | nil {s s' : Shared signature} : Meanwhile s s' → Calls s [] s'
  | cons {s s₀ s₁ s' : Shared signature} {x : Txn signature} {ps : List ProcessStep} :
      Meanwhile s s₀ →
      Ends (bank unicode) (processInTransaction staleSeconds retryBackoffSeconds) s₀
        (some (.ok (.processed true))) x s₁ →
      Calls s₁ ps s' → Calls s (⟨s₀, some (.ok (.processed true)), x, s₁⟩ :: ps) s'

/-- A drain that goes on forever. -/
def Endless (s : Shared signature) : Prop :=
  ∃ (f g : ℕ → Shared signature) (xs : ℕ → Txn signature), Meanwhile s (f 0) ∧
    ∀ n, Ends (bank unicode) (processInTransaction staleSeconds retryBackoffSeconds) (f n)
      (some (.ok (.processed true))) (xs n) (g n) ∧ Meanwhile (g n) (f (n + 1))

variable {unicode : Unicode} {staleSeconds retryBackoffSeconds : ℤ} {s₀ s₁ : Shared signature}
  {x : Txn signature} {ps : List ProcessStep} {y y' : BingxTransfer}

namespace Settles

theorem left_lt (h : Settles s₀ y y' s₁) : s₁.db.left y.id < s₀.db.left y.id := by
  rw [Database.left, Database.left, h.find?_self, Table.find?_of_mem h.row]
  exact h.records.attemptsLeft h.status

theorem left_eq (h : Settles s₀ y y' s₁) (hne : id ≠ y.id) : s₁.db.left id = s₀.db.left id := by
  rw [Database.left, Database.left, h.find?_ne hne]

theorem left_le (h : Settles s₀ y y' s₁) (id : String) : s₁.db.left id ≤ s₀.db.left id := by
  by_cases hid : id = y.id
  · rw [hid]
    exact h.left_lt.le
  · exact (h.left_eq hid).le

theorem parked_self (h : Settles s₀ y y' s₁) : s₁.db.Parked y.id := by
  intro z hz
  rw [h.find?_self] at hz
  cases hz
  exact h.records.status

theorem parked (h : Settles s₀ y y' s₁) (hp : s₀.db.Parked id) : s₁.db.Parked id := by
  by_cases hid : id = y.id
  · rw [hid]
    exact h.parked_self
  · intro z hz
    rw [h.find?_ne hid] at hz
    exact hp z hz

/-- No transfer is added. -/
theorem mem_ids (h : Settles s₀ y y' s₁) {ids : List String}
    (hids : ∀ z ∈ s₀.db.bingxTransfers.rows, z.id ∈ ids) :
    ∀ z ∈ s₁.db.bingxTransfers.rows, z.id ∈ ids := by
  intro z hz
  have hmem : z.id ∈ s₁.db.bingxTransfers.rows.map BingxTransfer.id := List.mem_map_of_mem hz
  rw [h.keys] at hmem
  obtain ⟨z₀, hz₀, hid⟩ := List.mem_map.mp hmem
  rw [← hid]
  exact hids z₀ hz₀

end Settles

theorem Meanwhile.mem_ids (h : Meanwhile s s') {ids : List String}
    (hids : ∀ z ∈ s.db.bingxTransfers.rows, z.id ∈ ids) :
    ∀ z ∈ s'.db.bingxTransfers.rows, z.id ∈ ids := by
  intro z hz
  obtain ⟨z₀, hz₀, hid, -⟩ := h z hz
  rw [← hid]
  exact hids z₀ hz₀

/-- Every call uses up one of the attempts that are left. -/
theorem Calls.length_le (h : Calls unicode staleSeconds retryBackoffSeconds s ps s')
    (ids : List String) (hids : ∀ y ∈ s.db.bingxTransfers.rows, y.id ∈ ids) :
    ps.length ≤ (ids.map s.db.left).sum := by
  induction h with
  | nil => exact Nat.zero_le _
  | @cons s s₀ s₁ s' x ps hmean hends hcalls ih =>
    obtain ⟨y, y', -, hsettles⟩ := exists_settles hends
    have hids₀ := hmean.mem_ids hids
    have hrest := ih (hsettles.mem_ids hids₀)
    have hstep : (ids.map s₁.db.left).sum < (ids.map s₀.db.left).sum :=
      List.sum_lt_sum _ _ (fun id _ => hsettles.left_le id)
        ⟨y.id, hids₀ y hsettles.row, hsettles.left_lt⟩
    have hbefore : (ids.map s₀.db.left).sum ≤ (ids.map s.db.left).sum :=
      List.sum_le_sum fun id _ => hmean.left_le id
    rw [List.length_cons]
    omega

theorem left_of_mem {y : BingxTransfer} (hy : y ∈ s.db.bingxTransfers.rows) :
    s.db.left y.id = y.attemptsLeft := by
  rw [Database.left, Table.find?_of_mem hy]
  rfl

/-- There are at most as many calls as there are attempts left. -/
theorem Calls.length_le_sum (h : Calls unicode staleSeconds retryBackoffSeconds s ps s') :
    ps.length ≤ (s.db.bingxTransfers.rows.map BingxTransfer.attemptsLeft).sum := by
  have hle := h.length_le (s.db.bingxTransfers.rows.map BingxTransfer.id)
    fun y hy => List.mem_map_of_mem hy
  rw [List.map_map] at hle
  have hsame : s.db.bingxTransfers.rows.map (s.db.left ∘ BingxTransfer.id) =
      s.db.bingxTransfers.rows.map BingxTransfer.attemptsLeft :=
    List.map_congr_left fun y hy => left_of_mem hy
  rwa [hsame] at hle

/-- An endless drain makes any number of calls. -/
theorem Endless.exists_calls (h : Endless unicode staleSeconds retryBackoffSeconds s) (n : ℕ) :
    ∃ ps s', ps.length = n ∧ Calls unicode staleSeconds retryBackoffSeconds s ps s' := by
  induction n generalizing s with
  | zero => exact ⟨[], s, rfl, .nil (.refl s)⟩
  | succ n ih =>
    obtain ⟨f, g, xs, hmean, hcalls⟩ := h
    obtain ⟨hends, hnext⟩ := hcalls 0
    have hrest : Endless unicode staleSeconds retryBackoffSeconds (g 0) :=
      ⟨fun n => f (n + 1), fun n => g (n + 1), fun n => xs (n + 1), hnext, fun n => hcalls (n + 1)⟩
    obtain ⟨ps, s', hlength, hps⟩ := ih hrest
    exact ⟨_ :: ps, s', by rw [List.length_cons, hlength], .cons hmean hends hps⟩

theorem not_endless (s : Shared signature) :
    ¬ Endless unicode staleSeconds retryBackoffSeconds s := by
  intro hendless
  obtain ⟨ps, s', hps, hcalls⟩ := hendless.exists_calls
    ((s.db.bingxTransfers.rows.map BingxTransfer.attemptsLeft).sum + 1)
  have hle := hcalls.length_le_sum
  omega

end

end MoneyWay
