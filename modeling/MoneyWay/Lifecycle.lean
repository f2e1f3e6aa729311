import MoneyWay.Histories

/-!
# The life cycle of a transaction

Whatever runs side by side, and whether the worker's statements commit together or one
by one: a transaction only ever makes the documented moves, keeps what was quoted, and
once it is failed or charged back it stays so, and its transfer is not claimed again.
-/

set_option autoImplicit false

namespace MoneyWay

open Keyed ReadCommitted Python Sql

section

variable {unicode : Unicode} {start : Shared signature} {tr : List (Transition signature)}
  {w : World signature}

/-- Every transition of a history makes one of the eight moves of a transaction's status
or leaves it, and keeps what was quoted; a failed or charged back one stays what it is. -/
theorem transaction_life_cycle (hs : Opening start) (hr : Run (bank unicode) start tr w) :
    (∀ x ∈ tr, ∀ id t, x.before.shared.db.transactions.find? id = some t →
      ∃ t', x.after.shared.db.transactions.find? id = some t' ∧ t.SameQuote t' ∧
        (t'.status = t.status ∨ TransactionStatus.Move t.status t'.status)) ∧
    ∀ x ∈ tr, ∀ id t, x.after.shared.db.transactions.find? id = some t → t.status.Absorbing →
      ∃ t', w.shared.db.transactions.find? id = some t' ∧ t'.status = t.status := by
  constructor
  · intro x hx id t ht
    obtain ⟨t', ht', hm⟩ := (run_evolves hs hr hx).transaction id t ht
    exact ⟨t', ht', hm.quote, hm.status⟩
  · intro x hx id t ht ha
    obtain ⟨late, early, rfl⟩ := List.append_of_mem hx
    exact (run_persists hs hr).absorbing ht ha

/-- A deposit whose payout is on hold is charged back; then the payout is reset. -/
theorem transaction_life_cycle_disputed :
    ∃ tr w, Run (bank .ascii) launch tr w ∧ (statuses w).2 = some .pending ∧
      ∃ x ∈ tr, statuses x.before = (some .paid, some .onHold) ∧
        (∃ t, x.after.shared.db.transactions.find? "deposit" = some t ∧
          TransactionStatus.Move .paid t.status) ∧
        ∃ t, w.shared.db.transactions.find? "deposit" = some t ∧ t.status = .chargeback := by
  obtain ⟨late, x, early, w, hr, -, hx, hw⟩ := Run.exists_of_steps_cons (bank .ascii) launch
    (heldDeposit ++ disputeDeposit 0 ++ blacklistDeposit 0) (commit 0) (resetPayout 0 ++ [commit 0])
    (fun x => (statuses x.before, statuses x.after)) statuses
    (b := ((some .paid, some .onHold), (some .chargeback, some .onHold)))
    (c := (some .chargeback, some .pending)) (by decide) (by decide)
  obtain ⟨hbefore, hafter⟩ := Prod.mk.inj hx
  obtain ⟨t, ht, hst⟩ := Option.map_eq_some_iff.mp (congrArg Prod.fst hbefore)
  obtain ⟨u, hu, hsu⟩ := Option.map_eq_some_iff.mp (congrArg Prod.fst hafter)
  obtain ⟨hmoves, habsorbing⟩ := transaction_life_cycle opening_launch hr
  have hmem : x ∈ late ++ x :: early := by simp
  refine ⟨_, w, hr, by rw [hw], x, hmem, hbefore, ?_, ?_⟩
  · obtain ⟨t', ht', -, hsame | hmove⟩ := hmoves x hmem _ t ht
    · rw [hu] at ht'
      cases ht'
      rw [hst, hsu] at hsame
      cases hsame
    · exact ⟨t', ht', hst ▸ hmove⟩
  · obtain ⟨t', ht', hst'⟩ := habsorbing x hmem _ u hu (.inr hsu)
    exact ⟨t', ht', hst'.trans hsu⟩

/-- Once a commit has left a transaction failed or charged back, no claim on a later
committed database returns a transfer of it, with any clock and any limits, whichever
rows are locked. A claim is the first statement of its transaction, so that is what it
reads. -/
theorem no_payout_after_chargeback (hs : Opening start) {late early : List (Transition signature)}
    {x : Transition signature} (hr : Run (bank unicode) start (late ++ x :: early) w) {id : String}
    {t : Transaction} (ht : x.after.shared.db.transactions.find? id = some t)
    (ha : t.status = .chargeback ∨ t.status = .failed) (now staleSeconds retryBackoffSeconds : ℤ)
    (locked : Row → LockMode → Bool) {eff : Effect Write Row (Option ClaimedTransfer)}
    (he : updateNextTransfer now
      (if staleSeconds > 0 then some (now - seconds staleSeconds) else none)
      (now - seconds retryBackoffSeconds) locked w.shared.db = .ok eff) :
    ∀ c ∈ eff.value, c.transactionId ≠ id := by
  obtain ⟨t', ht', hst⟩ := (run_persists hs hr).absorbing ht ha.symm
  intro c hc hid
  rcases updateNextTransfer_ok he with rfl | ⟨y, hy, hclaim, rfl⟩
  · cases hc
  · cases hc
    change y.transactionId = id at hid
    -- both branches of the claim look at the transaction's status
    simp only [claimable, hid, ht', Bool.and_eq_true, Option.any_some, decide_eq_true_eq] at hclaim
    rw [hst] at hclaim
    exact ha.elim hclaim.2.1 hclaim.2.2

/-- The payout of a charged back deposit, on hold and then reset, is not claimed. -/
theorem no_payout_after_chargeback_reset :
    ∃ tr w, Run (bank .ascii) launch tr w ∧ statuses w = (some .chargeback, some .pending) ∧
      ∀ eff, updateNextTransfer 0 none 0 (fun _ _ => false) w.shared.db = .ok eff →
        ∀ c ∈ eff.value, c.transactionId ≠ "deposit" := by
  obtain ⟨late, x, early, w, hr, -, hx, hw⟩ := Run.exists_of_steps_cons (bank .ascii) launch
    (heldDeposit ++ disputeDeposit 0 ++ blacklistDeposit 0) (commit 0) (resetPayout 0 ++ [commit 0])
    (fun x => statuses x.after) statuses (b := (some .chargeback, some .onHold))
    (c := (some .chargeback, some .pending)) (by decide) (by decide)
  obtain ⟨t, ht, hst⟩ := Option.map_eq_some_iff.mp (congrArg Prod.fst hx)
  exact ⟨_, w, hr, hw, fun eff he =>
    no_payout_after_chargeback opening_launch hr ht (.inl hst) 0 0 0 (fun _ _ => false) he⟩

end

end MoneyWay
