import MoneyWay.Drain

/-!
# A drain ends

A transfer that is retried goes back to the queue and may be due again at once, but it is
processed at most as often as it has attempts left. The tables may hold anything, and between two
calls others may do anything but add transfers or put them back into the queue.

## Main results

- `Drains.calls` — a drain as successive calls
- `drain_ends` — how many of them there are, and how they leave the transfers
-/

set_option autoImplicit false

namespace MoneyWay

open Keyed ReadCommitted Python Prog Sql

section

variable {unicode : Unicode} {staleSeconds retryBackoffSeconds : ℤ} {s s' : Shared signature}
  {ps : List ProcessStep} {id : String}

/-- `_drain` makes such calls, and then one that does not return `True`. -/
theorem Drains.calls (h : Drains unicode staleSeconds retryBackoffSeconds s ps s') :
    ∃ qs p, ps = qs ++ [p] ∧ Calls unicode staleSeconds retryBackoffSeconds s qs p.before := by
  induction h with
  | @last s s' r x hends hr => exact ⟨[], ⟨s, r, x, s'⟩, rfl, .nil (.refl s)⟩
  | @next s s₁ s' x ps hends hdrains ih =>
    obtain ⟨qs, p, hps, hcalls⟩ := ih
    exact ⟨_ :: qs, p, congrArg (_ :: ·) hps, .cons (.refl s) hends hcalls⟩

/-- A transfer that is not in `processing` is not left there. -/
theorem Calls.parked (h : Calls unicode staleSeconds retryBackoffSeconds s ps s')
    (hp : s.db.Parked id) : s'.db.Parked id := by
  induction h with
  | nil hmean => exact hmean.parked hp
  | cons hmean hends _ ih =>
    obtain ⟨y, y', -, hsettles⟩ := exists_settles hends
    exact ih (hsettles.parked (hmean.parked hp))

theorem Calls.parked_claimed (h : Calls unicode staleSeconds retryBackoffSeconds s ps s') :
    ∀ p ∈ ps, ∀ id, p.claimed? = some id → s'.db.Parked id := by
  induction h with
  | nil => simp
  | cons hmean hends hcalls ih =>
    intro p hp id hclaimed
    cases List.mem_cons.mp hp with
    | inl he =>
      obtain ⟨y, y', hself, hsettles⟩ := exists_settles hends
      rw [he, hself] at hclaimed
      cases hclaimed
      exact hcalls.parked hsettles.parked_self
    | inr hmem => exact ih p hmem id hclaimed

/-- A transfer is processed as often as it has attempts left, at most. -/
theorem Calls.countP_le (h : Calls unicode staleSeconds retryBackoffSeconds s ps s') (id : String) :
    ps.countP (fun p => p.claimed? = some id) ≤ s.db.left id := by
  induction h with
  | nil => exact Nat.zero_le _
  | @cons s s₀ s₁ s' x ps hmean hends hcalls ih =>
    obtain ⟨y, y', hself, hsettles⟩ := exists_settles hends
    have hmean := hmean.left_le id
    rw [List.countP_cons, hself]
    by_cases hid : id = y.id
    · rw [hid] at ih hmean ⊢
      have hless := hsettles.left_lt
      simp only [decide_true, if_true]
      omega
    · have hsame := hsettles.left_eq hid
      have hne : ¬ some y.id = some id := fun he => hid (Option.some.inj he).symm
      simp only [hne, decide_false, Bool.false_eq_true, if_false]
      omega

/-- Only transfers that were there are processed. -/
theorem Calls.claimed_mem (h : Calls unicode staleSeconds retryBackoffSeconds s ps s')
    {ids : List String} (hids : ∀ y ∈ s.db.bingxTransfers.rows, y.id ∈ ids) :
    ∀ p ∈ ps, ∃ id ∈ ids, p.claimed? = some id := by
  induction h with
  | nil => simp
  | @cons s s₀ s₁ s' x ps hmean hends hcalls ih =>
    obtain ⟨y, y', hself, hsettles⟩ := exists_settles hends
    have hids₀ := hmean.mem_ids hids
    intro p hp
    cases List.mem_cons.mp hp with
    | inl he =>
      rw [he]
      exact ⟨y.id, hids₀ y hsettles.row, hself⟩
    | inr hmem => exact ih (hsettles.mem_ids hids₀) p hmem

/-- A drain makes at most as many calls that return `True` as there are attempts left. It
processes no transfer more often than its attempts allow, once at least, and leaves none of
those it has processed in `processing`. -/
theorem drain_ends (unicode : Unicode) (staleSeconds retryBackoffSeconds : ℤ)
    (s : Shared signature) :
    ¬ Endless unicode staleSeconds retryBackoffSeconds s ∧
    ∀ ps s', Calls unicode staleSeconds retryBackoffSeconds s ps s' →
      ps.length ≤ (s.db.bingxTransfers.rows.map BingxTransfer.attemptsLeft).sum ∧
      (∀ p ∈ ps, ∃ y ∈ s.db.bingxTransfers.rows, p.claimed? = some y.id) ∧
      (∀ y ∈ s.db.bingxTransfers.rows, ps.countP (fun p => p.claimed? = some y.id) ≤
        max 1 (maxTransferAttempts - y.attemptNumber)) ∧
      ∀ p ∈ ps, ∀ y' ∈ s'.db.bingxTransfers.rows, p.claimed? = some y'.id →
        y'.status ≠ .processing := by
  refine ⟨not_endless s, fun ps s' h => ⟨h.length_le_sum, fun p hp => ?_, fun y hy => ?_, ?_⟩⟩
  · obtain ⟨id, hid, hclaimed⟩ := h.claimed_mem
      (fun y hy => List.mem_map_of_mem (f := BingxTransfer.id) hy) p hp
    obtain ⟨y, hy, rfl⟩ := List.mem_map.mp hid
    exact ⟨y, hy, hclaimed⟩
  · have hcount := h.countP_le y.id
    rw [left_of_mem hy, BingxTransfer.attemptsLeft] at hcount
    split at hcount
    · exact hcount
    · omega
  · intro p hp y' hy' hclaimed
    exact h.parked_claimed p hp y'.id hclaimed y' (Table.find?_of_mem hy')

end

/-- What the drain of a queue does when every connection breaks. -/
def brokenDrain (w : World signature) : Option (List (Option String × Bool)) :=
  (drain .ascii 0 0 4 (List.replicate 3 (.connectionError "read timeout")) w.shared).map
    fun r => r.1.map fun p => (p.claimed?, p.raised)

/-- The payout of a paid deposit is due again at once each time its connection breaks, and the
drain ends with its last attempt. -/
theorem drain_ends_broken : ∃ s ps s' y, Calls .ascii 0 0 s ps s' ∧
    y ∈ s.db.bingxTransfers.rows ∧ ps.length = 3 ∧
    ps.countP (fun p => p.claimed? = some y.id) ≤ max 1 (maxTransferAttempts - y.attemptNumber) ∧
    ∀ p ∈ ps, ∀ y' ∈ s'.db.bingxTransfers.rows, p.claimed? = some y'.id →
      y'.status ≠ .processing := by
  obtain ⟨tr, w, hr, -, hw⟩ := Run.exists_of_trace (bank .ascii) launch paidDeposit
    (fun r => brokenDrain r.2)
    (b := some (List.replicate 3 (some "payout", false) ++ [(none, false)])) (by decide +kernel)
  obtain ⟨⟨ps, s'⟩, hdrain, hobs⟩ := Option.map_eq_some_iff.mp hw
  obtain ⟨qs, p, rfl, hcalls⟩ := (drains_of_drain hdrain).calls
  have hlength : (qs ++ [p]).length = 4 := by
    rw [← List.length_map (fun p : ProcessStep => (p.claimed?, p.raised)), hobs]
    rfl
  rw [List.length_append, List.length_singleton] at hlength
  have hthree : qs.length = 3 := by omega
  obtain ⟨-, hends⟩ := drain_ends .ascii 0 0 w.shared
  obtain ⟨-, hclaimed, hcount, hparked⟩ := hends qs p.before hcalls
  obtain ⟨q, hq⟩ := List.exists_mem_of_length_pos (l := qs) (by omega)
  obtain ⟨y, hy, -⟩ := hclaimed q hq
  exact ⟨w.shared, qs, p.before, y, hcalls, hy, hthree, hcount y hy, hparked⟩

end MoneyWay
