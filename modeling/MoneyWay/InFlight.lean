import MoneyWay.Library.ReadCommitted.Locked
import MoneyWay.RetrySpacing

/-!
# One request at a time

A worker sends its request inside the transaction that has claimed the transfer, and the lock of
the claim goes with the transaction. So no two open transactions have sent a request under one
key, and while BingX is asked the transfer stays pending.

## Main definitions

- `LocksOnly` — what a worker has read and locked when it sends

## Main results

- `one_in_flight` — a key belongs to one open transaction, and its transfer is pending
-/

set_option autoImplicit false

namespace MoneyWay

open Keyed ReadCommitted Python Prog Sql

/-! ## Locked transfers -/

/-- `p` has a transfer to be tried that asks for the request, and it is locked. -/
structure LocksOn (q : TransferRequest) (y : BingxTransfer) (p : Shared signature)
    (held : List (Row × LockMode)) : Prop where
  stored : p.db.bingxTransfers.find? y.id = some y
  due : y.status = .pending ∨ y.status = .processing
  request : y.request = q
  held : (.bingxTransfer y.id, .update) ∈ held

/-- Nothing has been read but the transfer of the request, and it is locked. -/
def LocksOnly (q : TransferRequest) (x : Txn signature) : Prop :=
  ∃ y p, LocksOn q y p x.held ∧ x.snapshots = [p]

/-- The transfers of all answered requests are locked. -/
def LocksAll (x : Txn signature) : Prop :=
  ∀ c ∈ x.calls, ∃ y p, LocksOn c.1 y p x.held ∧ p ∈ x.snapshots

theorem LocksAll.executed {x : Txn signature} (h : LocksAll x) {α : Type} (s : Shared signature)
    (eff : Effect Write Row α) : LocksAll (x.executed s eff) := by
  intro c hc
  obtain ⟨y, p, hlocks, hp⟩ := h c hc
  exact ⟨y, p, { hlocks with held := List.mem_append_left _ hlocks.held },
    List.mem_append_left _ hp⟩

theorem LocksAll.answered {x : Txn signature} (h : LocksAll x) {q : TransferRequest}
    (hq : LocksOnly q x) (a : Answer) : LocksAll (x.answered q a) := by
  intro c hc
  rcases List.mem_append.mp hc with hc | hc
  · exact h c hc
  · obtain rfl := List.mem_singleton.mp hc
    obtain ⟨y, p, hlocks, hp⟩ := hq
    exact ⟨y, p, hlocks, hp ▸ List.mem_singleton_self p⟩

section

variable {unicode : Unicode}

/-- Code that sends nothing keeps the locks of what has been sent. -/
theorem keeps_of_silent {α : Type} {p : Handler α} (hp : p.Silent) {x : Txn signature}
    (hx : LocksAll x) : p.Keeps LocksOnly LocksAll (fun _ _ => True) x :=
  .of_silent hp (fun _ s eff h => h.executed s eff) (fun _ _ h => h) (fun _ _ _ => trivial) hx

theorem keeps_processTransfer {settings : WorkerSettings} :
    ((bank unicode).program (.processTransfer settings)).Keeps LocksOnly LocksAll
      (fun _ _ => True) {} := by
  have hnew : LocksAll {} := fun c hc => by cases hc
  refine .bind (.bind (.now fun now => .exec fun s blocked eff hq => ⟨hnew.executed s eff, ?_⟩))
  rcases updateNextTransfer_ok hq with rfl | ⟨y, hy, hclaim, rfl⟩
  · exact trivial
  -- the claim is the only statement before the request
  · have hlocks : LocksOnly y.request (Txn.executed {} s
        (⟨some (returning (claim now y)), [.bingxTransfer (claim now y)],
          [(.bingxTransfer y.id, .update)]⟩ : Effect Write Row _)) :=
      ⟨y, s, ⟨Table.find?_of_mem hy, status_of_claimable hclaim, rfl, by simp [Txn.executed]⟩, rfl⟩
    refine .bind ?_
    simp only [createInternalTransfer]
    split
    · exact trivial
    · refine ⟨hlocks, fun a => ⟨(hnew.executed s _).answered hlocks a, ?_⟩⟩
      change (recordOutcome unicode _ (readAnswer unicode a) >>= fun _ => pure true).Keeps _ _ _ _
      refine .bind ?_
      rw [recordOutcome_eq]
      exact keeps_of_silent silent_follow ((hnew.executed s _).answered hlocks a)

theorem keeps_program (j : Job) : ((bank unicode).program j).Keeps LocksOnly LocksAll
    (fun _ _ => True) {} := by
  cases j with
  | processTransfer settings => exact keeps_processTransfer
  | _ => exact keeps_of_silent (silent_program _ rfl) fun c hc => by cases hc

end

/-! ## Histories -/

section

variable {unicode : Unicode} {start : Shared signature} {tr : List (Transition signature)}
  {w : World signature}

/-- Whoever has sent a request has the lock of its transfer. -/
theorem run_locks (hr : Run (bank unicode) start tr w) {s : Session signature}
    (hs : s ∈ w.sessions.rows) (hjob : s.job.Together) {q : TransferRequest} (hq : s.HasSent q) :
    ∃ y p, LocksOn q y p s.txn.held ∧ p ∈ s.txn.snapshots := by
  obtain ⟨hall, hkeeps⟩ := hr.keeps (C := LocksOnly) (I := LocksAll)
    (fun j _ => keeps_program j) (fun c hc => by cases hc) s hs hjob
  rcases hq with ⟨a, ha⟩ | ⟨k, hk⟩
  · exact hall _ ha
  · rw [hk] at hkeeps
    obtain ⟨⟨y, p, hlocks, hp⟩, -⟩ := hkeeps
    exact ⟨y, p, hlocks, hp ▸ List.mem_singleton_self p⟩

/-- Whatever runs side by side, at any moment a key has been used by one open transaction at
most, and while BingX has yet to answer its transfer is pending for everyone else. -/
theorem one_in_flight (hs : Opening start) (hr : Run (bank unicode) start tr w)
    (hj : Contract.Starts Job.Together tr) :
    (∀ s ∈ w.sessions.rows, ∀ t ∈ w.sessions.rows, ∀ q q', s.HasSent q → t.HasSent q' →
      q.idempotencyKey = q'.idempotencyKey → s = t) ∧
    ∀ s ∈ w.sessions.rows, ∀ q k, s.prog = .await q k →
      ∃ y ∈ w.shared.db.bingxTransfers.rows, y.request = q ∧ y.status = .pending := by
  have hsafe := (agreeing_valid unicode).run ⟨hs.inv, hs.agreed⟩ hr hj
  constructor
  · intro s hsw t htw q q' hsq htq hkey
    obtain ⟨y, p, hy, hp⟩ := run_locks hr hsw (hsafe.allowed s hsw) hsq
    obtain ⟨z, p', hz, hp'⟩ := run_locks hr htw (hsafe.allowed t htw) htq
    -- both transfers are still there, under the same key
    obtain ⟨-, -, hpersists⟩ := seen_of_past (hsafe.past s hsw) p hp
    obtain ⟨-, -, hpersists'⟩ := seen_of_past (hsafe.past t htw) p' hp'
    obtain ⟨y', hy', hsame⟩ := hpersists.transfer _ _ hy.stored
    obtain ⟨z', hz', hsame'⟩ := hpersists'.transfer _ _ hz.stored
    have heq : y' = z' := by
      refine hsafe.inv.1.sound.eq_of_idempotencyKey (Table.mem_of_find? hy')
        (Table.mem_of_find? hz') ?_
      calc y'.idempotencyKey = q.idempotencyKey := hsame.idempotencyKey.trans (hy.request ▸ rfl)
        _ = q'.idempotencyKey := hkey
        _ = z'.idempotencyKey := (hsame'.idempotencyKey.trans (hz.request ▸ rfl)).symm
    have hid : y.id = z.id := by
      rw [← hsame.id, ← hsame'.id, heq]
    by_contra hne
    have hids : s.id ≠ t.id := fun he => hne (Table.eq_of_key hsw htw he)
    have hfree := hsafe.exclusive s hsw t htw hids _ hy.held _ hz.held (by rw [hid])
    cases hfree
  · intro s hsw q k hk
    obtain ⟨-, hkeeps⟩ := hr.keeps (C := LocksOnly) (I := LocksAll)
      (fun j _ => keeps_program j) (fun c hc => by cases hc) s hsw (hsafe.allowed s hsw)
    rw [hk] at hkeeps
    obtain ⟨⟨y, p, hlocks, hp⟩, -⟩ := hkeeps
    obtain ⟨p', hp', hrow⟩ := (agreeing_valid unicode).held_rows ⟨hs.inv, hs.agreed⟩ hr hj s hsw
      (hsafe.allowed s hsw) _ _ hlocks.held rfl
    rw [hp, List.mem_singleton] at hp'
    -- the row is as the claim has read it
    rw [hp'] at hrow
    have hy := Table.mem_of_find? ((Database.row_bingxTransfer hrow).symm.trans hlocks.stored)
    exact ⟨y, hy, hlocks.request, hlocks.due.resolve_right (run_ne_processing hs hr hj y hy)⟩

end

/-! ### Two workers -/

/-- One worker has sent the payout, then another one looks for something to do. -/
def twoWorkers : List (Action signature) :=
  paidDeposit ++ sendPayout 0 ++ .start 1 (.processTransfer worker) :: runs 1 2

/-- The request a session waits for. -/
def awaited (s : Session signature) : Option TransferRequest :=
  match s.prog with
  | .await q _ => some q
  | _ => none

theorem exists_await {s : Session signature} {q : TransferRequest} (h : awaited s = some q) :
    ∃ k, s.prog = .await q k := by
  unfold awaited at h
  split at h
  · next k hp =>
    cases h
    exact ⟨k, hp⟩
  · cases h

/-- What the first session waits for, and whether there is a second one. -/
def firstAwaits (w : World signature) : Option TransferRequest × Bool :=
  ((w.sessions.find? 0).bind awaited, (w.sessions.find? 1).isSome)

/-- While one worker waits, another has found nothing to send. -/
theorem one_in_flight_waiting : ∃ tr w s t, Run (bank .ascii) launch tr w ∧
    s ∈ w.sessions.rows ∧ t ∈ w.sessions.rows ∧ s.HasSent payout ∧ ¬ t.HasSent payout ∧
    ∃ y ∈ w.shared.db.bingxTransfers.rows, y.request = payout ∧ y.status = .pending := by
  obtain ⟨tr, w, hr, hactions, hw⟩ := Run.exists_of_trace (bank .ascii) launch
    twoWorkers (fun r => firstAwaits r.2) (b := (some payout, true)) (by decide +kernel)
  have hj : Contract.Starts Job.Together tr := Contract.Starts.of_actions hactions (by decide)
  obtain ⟨hfirst, hsecond⟩ := Prod.mk.inj hw
  obtain ⟨s, hs, hawaits⟩ := Option.bind_eq_some_iff.mp hfirst
  obtain ⟨t, ht⟩ := Option.isSome_iff_exists.mp hsecond
  obtain ⟨k, hk⟩ := exists_await hawaits
  have hsw := Table.mem_of_find? hs
  have htw := Table.mem_of_find? ht
  obtain ⟨hone, hpending⟩ := one_in_flight opening_launch hr hj
  refine ⟨tr, w, s, t, hr, hsw, htw, .inr ⟨k, hk⟩, fun hsent => ?_, hpending s hsw payout k hk⟩
  have hsame := hone s hsw t htw payout payout (.inr ⟨k, hk⟩) hsent rfl
  have hid : s.id = t.id := congrArg Session.id hsame
  rw [Table.key_of_find? hs, Table.key_of_find? ht] at hid
  cases hid

end MoneyWay
