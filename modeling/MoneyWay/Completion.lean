import Mathlib.Data.Finset.Dedup
import Mathlib.Data.Finset.Order
import Mathlib.Tactic.Linarith
import MoneyWay.Recovery

/-!
# No paid deposit is stuck

Sessions break off, answers get lost, transfers are put on hold or wait for their next attempt.
Still, from every state of every history all paid deposits can be paid out: what is open is
rolled back, what is on hold is reset, time goes by, and the worker drains the queue while BingX
accepts what it is sent.

## Main definitions

- `Job.Operates` — what is needed for that: resets and workers

## Main results

- `deposits_can_complete` — there are such steps, and they complete every paid deposit
-/

set_option autoImplicit false

namespace MoneyWay

open Keyed ReadCommitted Python Prog Sql

/-- The job resets a transfer, or is a worker's call. -/
def Job.Operates (staleSeconds retryBackoffSeconds : ℤ) (j : Job) : Prop :=
  (∃ transferId, j = .resetOnHold transferId) ∨
    j = processInTransaction staleSeconds retryBackoffSeconds

section

variable {unicode : Unicode} {staleSeconds retryBackoffSeconds : ℤ} {s s' : Shared signature}
  {ps : List ProcessStep} {z : BingxTransfer}

/-! ## Resets -/

variable (unicode) in
/-- A reset that runs alone leaves everything but its transfer, which is not on hold any more. -/
theorem ends_resetOnHold (s : Shared signature) (transferId : String) :
    ∃ x s', Ends (bank unicode) (.resetOnHold transferId) s (some (.ok .accepted)) x s' ∧
      s'.ext = s.ext ∧ s'.db.transactions = s.db.transactions ∧
      ∀ y ∈ s'.db.bingxTransfers.rows, y.status = .onHold →
        y ∈ s.db.bingxTransfers.rows ∧ y.id ≠ transferId := by
  have hends (eff : Effect Write Row Unit) (hq : updateTransfer transferId [] none
      (fun x => decide (x.status = .onHold)) BingxTransfer.release (fun _ _ => false) s.db =
        .ok eff) : ∃ x, Ends (bank unicode) (.resetOnHold transferId) s (some (.ok .accepted)) x
          ⟨replay eff.writes s.db, s.ext⟩ := by
    have halone : Alone (bank unicode) ((bank unicode).program (.resetOnHold transferId)) {} s
        (some (.ok .accepted)) (Txn.executed {} s eff) s := Alone.stmt hq .done
    exact ⟨_, ⟨halone⟩⟩
  cases hfind : s.db.bingxTransfers.find? transferId with
  | none =>
    obtain ⟨x, hx⟩ := hends { value := () } (by simp [updateTransfer, hfind, fits])
    refine ⟨x, _, hx, rfl, rfl, fun y hy _ => ⟨hy, fun hid => ?_⟩⟩
    exact Table.find?_eq_none.mp hfind y hy hid
  | some y₀ =>
    by_cases hheld : y₀.status = .onHold
    · obtain ⟨x, hx⟩ := hends { value := (), writes := [.bingxTransfer y₀.release] }
        (by simp [updateTransfer, hfind, fits, hheld])
      refine ⟨x, _, hx, rfl, rfl, fun y hy hst => ?_⟩
      rcases Table.mem_put.mp hy with rfl | ⟨hmem, hne⟩
      · cases hst
      · exact ⟨hmem, fun hid => hne (hid.trans (Table.key_of_find? hfind).symm)⟩
    · obtain ⟨x, hx⟩ := hends { value := () } (by simp [updateTransfer, hfind, fits, hheld])
      refine ⟨x, _, hx, rfl, rfl, fun y hy hst => ⟨hy, fun hid => ?_⟩⟩
      have hmem : y ∈ s.db.bingxTransfers.rows := hy
      have hsame : y = y₀ := by
        rw [← hid, Table.find?_of_mem hmem] at hfind
        exact Option.some.inj hfind
      exact hheld (hsame ▸ hst)

variable (staleSeconds retryBackoffSeconds) in
/-- Resets one after the other. -/
theorem exists_reset (ids : List String) (hi : (storing unicode).inv s) :
    ∃ s', CanReach (bank unicode) (Job.Operates staleSeconds retryBackoffSeconds) (.idle s)
        (.idle s') ∧ (storing unicode).inv s' ∧ s'.db.transactions = s.db.transactions ∧
      ∀ y ∈ s'.db.bingxTransfers.rows, y.status = .onHold →
        y ∈ s.db.bingxTransfers.rows ∧ y.id ∉ ids := by
  induction ids generalizing s with
  | nil => exact ⟨s, .refl _, hi, rfl, fun y hy _ => ⟨hy, List.not_mem_nil⟩⟩
  | cons id ids ih =>
    obtain ⟨x, s₁, hends, -, htransactions, hreset⟩ := ends_resetOnHold unicode s id
    have hi₁ := ((storing_valid unicode).ends (j := .resetOnHold id) rfl rfl hends hi).1
    obtain ⟨s', hreach, hi', htransactions', hrest⟩ := ih hi₁
    refine ⟨s', (hends.canReach rfl (.inl ⟨id, rfl⟩)).trans hreach, hi',
      htransactions'.trans htransactions, fun y hy hst => ?_⟩
    obtain ⟨hmem₁, hids⟩ := hrest y hy hst
    obtain ⟨hmem, hid⟩ := hreset y hmem₁ hst
    exact ⟨hmem, List.not_mem_cons_of_ne_of_not_mem hid hids⟩

/-! ## Time -/

variable (staleSeconds retryBackoffSeconds) in
/-- After some time every pending transfer of a paid deposit is due. -/
theorem exists_due (s : Shared signature) : ∃ delta : ℕ, ∀ y ∈ s.db.bingxTransfers.rows,
    y.status = .pending → (∃ t, s.db.transactions.find? y.transactionId = some t ∧
      t.status = .paid) →
    Due staleSeconds retryBackoffSeconds ⟨s.db, { s.ext with now := s.ext.now + delta }⟩ y := by
  let ready (y : BingxTransfer) : ℤ := max y.scheduledAt (y.updatedAt + seconds retryBackoffSeconds)
  obtain ⟨T, hT⟩ := (s.db.bingxTransfers.rows.map ready).toFinset.exists_le
  refine ⟨(T - s.ext.now).toNat, fun y hy hst ⟨t, ht, hpaid⟩ => ⟨hy, ?_⟩⟩
  have hlate : ready y ≤ s.ext.now + (T - s.ext.now).toNat := by
    have hle := hT (ready y) (List.mem_toFinset.mpr (List.mem_map_of_mem hy))
    have hdelta := Int.self_le_toNat (T - s.ext.now)
    linarith
  obtain ⟨hscheduled, hupdated⟩ := max_le_iff.mp hlate
  simp only [dueAt, claimable, ht, hst, hpaid, true_and, Option.any_some, Bool.and_eq_true,
    Bool.or_eq_true, decide_eq_true_eq]
  exact ⟨.inl ⟨hscheduled, .inr (by linarith)⟩, by decide⟩

/-! ## Payouts -/

/-- BingX has accepted a request under this key. -/
def PaidUnder (q : TransferRequest) (b : Bingx) : Prop :=
  ∃ a ∈ b.accepted, a.idempotencyKey = q.idempotencyKey

theorem PaidUnder.grow {q : TransferRequest} {b b' : Bingx} (h : PaidUnder q b)
    (hgrow : b.accepted <+: b'.accepted) : PaidUnder q b' := by
  obtain ⟨a, ha, hkey⟩ := h
  exact ⟨a, hgrow.subset ha, hkey⟩

/-- What BingX is sent it can accept, if it has not done so before. -/
theorem serves_paidUnder (unicode : Unicode) : Serves (bank unicode) PaidUnder where
  served q b := by
    by_cases hold : PaidUnder q b
    · exact ⟨b.send q, .refl, hold⟩
    · have hnew : ∀ a ∈ b.accepted, a.idempotencyKey ≠ q.idempotencyKey := fun a ha hkey =>
        hold ⟨a, ha, hkey⟩
      have haccept : (b.send q).event (.accept q) =
          some { b.send q with wire := (b.send q).wire.erase q, accepted := b.accepted ++ [q] } :=
        if_pos ⟨List.mem_append_right _ List.mem_cons_self, hnew⟩
      exact ⟨_, .single ⟨.accept q, haccept⟩, q, by simp, rfl⟩
  send _ _ _ h := h
  event q e b b' h he := by
    cases e with
    | accept r =>
      change (if _ then _ else none) = _ at he
      split at he
      · cases he
        exact h.grow (List.prefix_append _ _)
      · cases he
    | drop r =>
      change (if _ then _ else none) = _ at he
      split at he
      · cases he
        exact h
      · cases he
    | tick delta =>
      cases he
      exact h

/-- The call that takes a transfer sends its request. -/
theorem exists_call {x : Txn signature} (hi : (storing unicode).inv s)
    (h : Ends (bank unicode) (processInTransaction staleSeconds retryBackoffSeconds) s
      (some (.ok (.processed true))) x s') {y : BingxTransfer}
    (hy : y ∈ s.db.bingxTransfers.rows)
    (hclaimed : (⟨s, some (.ok (.processed true)), x, s'⟩ : ProcessStep).claimed? = some y.id) :
    ∃ a, (y.request, a) ∈ x.calls := by
  have htogether : Job.Together (processInTransaction staleSeconds retryBackoffSeconds) := rfl
  obtain ⟨-, q, -, -, ho, hdb, -⟩ := (storing_valid unicode).ends_past htogether rfl h hi
  have ho : Outcome unicode (processInTransaction staleSeconds retryBackoffSeconds)
    (.processed true) x q := ho
  cases ho with
  | @processed z _ a ws hrow hcalls _ hpending =>
    rw [claimed?_of_pending hpending] at hclaimed
    have hz : z ∈ s.db.bingxTransfers.rows := hdb ▸ Table.mem_of_find? hrow.row
    obtain rfl : z = y := eq_of_id hz hy (Option.some.inj hclaimed)
    exact ⟨a, by rw [hcalls]; exact List.mem_singleton_self _⟩

theorem accepted_of_leads (h : (storing unicode).Leads s s') :
    s.ext.accepted <+: s'.ext.accepted :=
  h.lift (r := fun (s s' : Shared signature) => s.ext.accepted <+: s'.ext.accepted)
    (fun _ => List.prefix_refl _) (fun _ _ _ => List.IsPrefix.trans)
    fun _ _ (hg : Guar _ _) => hg.accepted

/-- What is due is sent in a drain that raises nothing, and accepted. -/
theorem drain_pays (hd : Drains unicode staleSeconds retryBackoffSeconds s ps s')
    (hi : (storing unicode).inv s) (hraises : ∀ p ∈ ps, ¬ p.Raises) (hserved : Served PaidUnder ps)
    (hz : Due staleSeconds retryBackoffSeconds s z) : PaidUnder z.request s'.ext := by
  have htogether : Job.Together (processInTransaction staleSeconds retryBackoffSeconds) := rfl
  refine Drains.tracks (K := fun p => ∀ c ∈ p.txn.calls, PaidUnder c.1 p.after.ext)
    (H := fun s => PaidUnder z.request s.ext) ?_ ?_ hd hi (fun p hp => ⟨hraises p hp, hserved p hp⟩)
    ⟨z, Table.find?_of_mem hz.1, .refl z⟩ (.inl hz)
  · intro s x s₁ y hi hends hserved hy hclaimed hid hz
    rcases hz with hmem | hpaid
    · obtain rfl : y = z := eq_of_id hy hmem hid
      obtain ⟨a, ha⟩ := exists_call hi hends hy hclaimed
      exact hserved _ ha
    · exact hpaid.grow (accepted_of_leads ((storing_valid unicode).ends htogether rfl hends hi).2.1)
  · intro s s₁ hleads _ _ h
    exact h.grow (accepted_of_leads hleads)

theorem drain_inv (hd : Drains unicode staleSeconds retryBackoffSeconds s ps s')
    (hi : (storing unicode).inv s) : (storing unicode).inv s' := by
  have htogether : Job.Together (processInTransaction staleSeconds retryBackoffSeconds) := rfl
  induction hd with
  | last hends _ => exact ((storing_valid unicode).ends htogether rfl hends hi).1
  | next hends _ ih => exact ih ((storing_valid unicode).ends htogether rfl hends hi).1

/-! ## Every history -/

/-- What the service answers with when it has accepted a transfer completes it. -/
theorem acceptance_completes (unicode : Unicode) : (answerRoute unicode acceptance).Recordable ∧
    (answerRoute unicode acceptance).ending = .completed := by
  have hroute : answerRoute unicode acceptance = .complete (some "bingx")
      (.obj [("code", .int 0), ("data", .obj [("id", .str "bingx")])]) := rfl
  rw [hroute]
  exact ⟨by decide, rfl⟩

/-- Where no transfer is on hold, a paid deposit has a transfer that is pending. -/
theorem exists_pending (hi : (storing unicode).inv s)
    (hnone : ∀ y ∈ s.db.bingxTransfers.rows, y.status ≠ .onHold) {t : Transaction}
    (ht : s.db.transactions.find? t.id = some t) (hpaid : t.status = .paid) :
    ∃ y ∈ s.db.bingxTransfers.rows, y.transactionId = t.id ∧ y.status = .pending ∧ y.Pays t := by
  obtain ⟨⟨hinv, hagreed⟩, -⟩ := hi
  have hfile := Database.file_of_find? ht
  have hagrees := hagreed _ _ hfile
  generalize htransfer : s.db.transferOf t.id = m at hagrees
  generalize s.db.kycRecords.find? t.id = k at hagrees
  cases hagrees with
  | @paid _ y _ _ hst =>
    obtain ⟨hy, hid⟩ := (Database.transferOf_eq_some hinv.sound).mp htransfer
    obtain ⟨u, hu, -, hpays⟩ := hinv.sound.owner y hy
    rw [hid, ht] at hu
    obtain rfl := Option.some.inj hu
    exact ⟨y, hy, hid, hst.resolve_right (hnone y hy), hpays⟩
  | pending h | rejected h | completed h | error h | failed h | charged h | chargedHeld h =>
    rw [hpaid] at h
    cases h

variable {start : Shared signature} {tr : List (Transition signature)} {w : World signature}

/-- Whatever has happened, and whatever is still open, all deposits that are paid can be paid out
to their recipients by rolling back, resetting, waiting and running the worker. -/
theorem deposits_can_complete (hs : Opening start) (hr : Run (bank unicode) start tr w)
    (hj : Contract.Starts Job.Together tr) (staleSeconds retryBackoffSeconds : ℤ) :
    ∃ s', CanReach (bank unicode) (Job.Operates staleSeconds retryBackoffSeconds) w (.idle s') ∧
      ∀ t ∈ w.shared.db.transactions.rows, t.status = .paid → ∃ t' y,
        s'.db.transactions.find? t.id = some t' ∧ t'.status = .completed ∧
        y ∈ s'.db.bingxTransfers.rows ∧ y.status = .completed ∧ y.Pays t ∧
        y.request ∈ s'.ext.accepted := by
  have hi : (storing unicode).inv w.shared :=
    ⟨⟨run_inv hs hr, ((agreeing_valid unicode).run ⟨hs.inv, hs.agreed⟩ hr hj).inv.2⟩,
      run_admitted hs hr hj⟩
  -- no transfer is on hold
  obtain ⟨s₁, hreach₁, hi₁, htransactions, hreset⟩ := exists_reset staleSeconds
    retryBackoffSeconds (w.shared.db.bingxTransfers.rows.map BingxTransfer.id) hi
  have hnone : ∀ y ∈ s₁.db.bingxTransfers.rows, y.status ≠ .onHold := by
    intro y hy hst
    obtain ⟨hmem, hid⟩ := hreset y hy hst
    exact hid (List.mem_map_of_mem hmem)
  -- every pending transfer of a paid deposit is due
  obtain ⟨delta, hdue⟩ := exists_due staleSeconds retryBackoffSeconds s₁
  have htick : (bank unicode).event (.tick delta) s₁.ext =
      some { s₁.ext with now := s₁.ext.now + delta } := rfl
  have hi₂ := ((storing_valid unicode).event _ _ _ hi₁ htick).2
  -- and is paid out
  obtain ⟨hrecordable, hcompleted⟩ := acceptance_completes unicode
  obtain ⟨ps, s', hd, hsmooth, hserved⟩ : ∃ ps s', Drains unicode staleSeconds
      retryBackoffSeconds ⟨s₁.db, { s₁.ext with now := s₁.ext.now + delta }⟩ ps s' ∧
      Smooth alwaysAccepts ps ∧ Served PaidUnder ps :=
    exists_smooth_drain (serves_paidUnder unicode) (fun _ => hrecordable) hi₂ _
      fun y hy => List.mem_map_of_mem (f := BingxTransfer.id) hy
  have hpass : Passes (bank unicode) s₁.ext { s₁.ext with now := s₁.ext.now + delta } :=
    .single ⟨_, htick⟩
  refine ⟨s', (canReach_idle w).trans
    (hreach₁.trans (hpass.canReach.trans (hd.canReach (.inr rfl)))), ?_⟩
  intro t ht hpaid
  have hfind : s₁.db.transactions.find? t.id = some t := by
    rw [htransactions]
    exact Table.find?_of_mem ht
  obtain ⟨y, hy, hid, hst, hpays⟩ := exists_pending hi₁ hnone hfind hpaid
  have hready := hdue y hy hst ⟨t, by rw [hid]; exact hfind, hpaid⟩
  obtain ⟨t', y', ht', hy', hsame, -, hstands⟩ := drain_handles hd hi₂ hsmooth hready
  have hending : (answerRoute unicode (alwaysAccepts y.request)).ending = .completed := hcompleted
  rw [hending] at hstands
  obtain ⟨hy'st, ht'st⟩ := hstands.of_completed
  refine ⟨t', y', hid ▸ ht', ht'st, Table.mem_of_find? hy', hy'st, hpays.congr hsame (.refl t), ?_⟩
  -- the accepted request has the key of this transfer only
  have hi' : Inv s' := (drain_inv hd hi₂).1.1
  obtain ⟨a, ha, hkey⟩ := drain_pays hd hi₂ (fun p hp => (hsmooth p hp).1) hserved hready
  obtain ⟨z, hz, rfl⟩ := hi'.ledger.accepted a ha
  obtain rfl : z = y' := hi'.sound.eq_of_idempotencyKey hz (Table.mem_of_find? hy')
    (hkey.trans hsame.idempotencyKey.symm)
  exact ha

end

/-! ### A deposit that is held -/

/-- The payout is on hold, and a chargeback is under way that is not going to be committed. -/
def stuckDeposit : List (Action signature) := heldDeposit ++ disputeDeposit 0

/-- How the deposit and its payout stand, and whether a session is open. -/
def stuck (w : World signature) :
    Option TransactionStatus × Option TransferStatus × Bool :=
  ((statuses w).1, (statuses w).2, w.sessions.rows.isEmpty)

theorem deposits_can_complete_held : ∃ tr w s', Run (bank .ascii) launch tr w ∧
    stuck w = (some .paid, some .onHold, false) ∧
    CanReach (bank .ascii) (Job.Operates 300 30) w (.idle s') ∧
    (s'.db.transactions.find? "deposit").map (·.status) = some .completed := by
  obtain ⟨tr, w, hr, hactions, hw⟩ := Run.exists_of_trace (bank .ascii) launch stuckDeposit
    (fun r => stuck r.2) (b := (some .paid, some .onHold, false)) (by decide +kernel)
  have hj : Contract.Starts Job.Together tr := Contract.Starts.of_actions hactions (by decide)
  obtain ⟨s', hreach, hcomplete⟩ := deposits_can_complete opening_launch hr hj 300 30
  refine ⟨tr, w, s', hr, hw, hreach, ?_⟩
  obtain ⟨t, ht, hpaid⟩ := Option.map_eq_some_iff.mp (Prod.mk.inj hw).1
  have hid : t.id = "deposit" := Table.key_of_find? ht
  obtain ⟨t', y, ht', hst, -⟩ := hcomplete t (Table.mem_of_find? ht) hpaid
  rw [← hid, ht', Option.map_some, hst]

end MoneyWay
