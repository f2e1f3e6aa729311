import MoneyWay.Histories

/-!
# The hold before a payout

A transfer is due when its hold is over, counted from the moment the paid webhook has put
it in the queue. Whatever is sent is due: a pending transfer because the claim looks at the
time, a stuck one because it was due when it was claimed before.
-/

set_option autoImplicit false

namespace MoneyWay

open Keyed ReadCommitted Python Sql

/-- The transition is the commit of the paid webhook that has put the transfer in the queue:
the handler has read the clock, at the transfer's `createdAt`, after one of its statements
and before it commits, and has added the hold. -/
structure ScheduledBy (y : BingxTransfer) (x : Transition signature) : Prop where
  commits : ∃ s v p holdMinutes, x.Commits s v ∧ s.job = .sbpPaymentWebhook p holdMinutes ∧
    p.transactionId = y.transactionId ∧ p.status = .paid ∧
    (∃ q ∈ s.txn.snapshots, q.ext.now ≤ y.createdAt) ∧
    y.createdAt ≤ x.before.shared.ext.now ∧
    y.scheduledAt = y.createdAt + holdMinutes * 60 * 10 ^ 6
  before : ∀ z ∈ x.before.shared.db.bingxTransfers.rows, z.transactionId ≠ y.transactionId
  after : ∃ z ∈ x.after.shared.db.bingxTransfers.rows, z.SamePayout y

theorem ScheduledBy.congr {y y' : BingxTransfer} {x : Transition signature} (h : ScheduledBy y x)
    (hsame : y.SamePayout y') : ScheduledBy y' x := by
  obtain ⟨hc, hb, z, hz, hzy⟩ := h
  refine ⟨?_, ?_, z, hz, hzy.trans hsame⟩
  · rwa [hsame.transactionId, hsame.createdAt, hsame.scheduledAt]
  · rwa [hsame.transactionId]

section

variable {unicode : Unicode} {start : Shared signature} {tr : List (Transition signature)}
  {w : World signature}

/-- A transfer that a commit writes was there, or is the new one of a paid webhook. -/
theorem Committed.scheduled {x : Txn signature} {s : Shared signature} {j : Job} {v : Result}
    {ws : List Write} {y : BingxTransfer} (h : Committed unicode x s j v ws)
    (hy : .bingxTransfer y ∈ ws) :
    (∃ y₀ ∈ s.db.bingxTransfers.rows, y₀.SamePayout y) ∨
      ∃ p holdMinutes t id now, j = .sbpPaymentWebhook p holdMinutes ∧ p.status = .paid ∧
        s.db.transactions.find? p.transactionId = some t ∧ t.status = .pending ∧
        y = newTransfer t holdMinutes id now ∧ (∃ q ∈ x.snapshots, q.ext.now ≤ now) ∧
        now ≤ s.ext.now := by
  cases h with
  | nothing => cases hy
  | created | rejected => simp at hy
  | @paid p holdMinutes _ t _ _ _ id _ _ now₂ hp ht hst _ _ _ _ _ hread hclock =>
    obtain rfl : y = newTransfer t holdMinutes id now₂ := by simpa using hy
    exact .inr ⟨p, holdMinutes, t, id, now₂, rfl, hp, ht, hst, rfl, hread, hclock⟩
  | disputed _ _ _ _ hcancel =>
    rcases List.mem_cons.mp hy with hy | hy
    · cases hy
    · obtain ⟨y₀, hy₀, he⟩ := List.mem_map.mp hy
      obtain rfl := Write.bingxTransfer.inj he
      exact .inl ⟨y₀, Table.mem_of_find? (hcancel y₀ hy₀), y₀.samePayout_cancel _⟩
  | @recorded _ y₀ y' now _ _ ws hclaimed _ hset hws =>
    refine .inl ⟨y₀, Table.mem_of_find? hclaimed.row, ?_⟩
    rcases List.mem_cons.mp hy with hy | hy
    · obtain rfl := Write.bingxTransfer.inj hy
      exact y₀.samePayout_claim now
    rcases List.mem_cons.mp hy with hy | hy
    · obtain rfl := Write.bingxTransfer.inj hy
      exact hset.samePayout
    · exact absurd hy (hws.no_transfer y)
  | reset hrow =>
    obtain rfl := Write.bingxTransfer.inj (List.mem_singleton.mp hy)
    exact .inl ⟨_, Table.mem_of_find? hrow, BingxTransfer.samePayout_release _⟩

/-- Every transfer has been put in the queue by a paid webhook. -/
theorem exists_scheduledBy (hs : Opening start) (hr : Run (bank unicode) start tr w) :
    ∀ y ∈ w.shared.db.bingxTransfers.rows, ∃ x ∈ tr, ScheduledBy y x := by
  refine (payments_valid unicode).induction hs.inv
    (motive := fun tr w => ∀ y ∈ w.shared.db.bingxTransfers.rows, ∃ x ∈ tr, ScheduledBy y x)
    ?_ ?_ hr (starts_any tr)
  · intro y hy
    simp [World.idle, hs.bingxTransfers] at hy
  · intro tr w a w' _ hsafe _ hchange ih y hy
    have hold {y₀ : BingxTransfer} (hy₀ : y₀ ∈ w.shared.db.bingxTransfers.rows)
        (hsame : y₀.SamePayout y) : ∃ x ∈ (⟨w, a, w'⟩ :: tr : List (Transition signature)),
          ScheduledBy y x := by
      obtain ⟨x, hx, h⟩ := ih y₀ hy₀
      exact ⟨x, List.mem_cons_of_mem _ hx, h.congr hsame⟩
    cases hchange with
    | silent _ he | finished _ _ _ he => exact hold (by rw [he] at hy; exact hy) (.refl y)
    | send _ _ _ he | event _ _ he => exact hold (by rw [he] at hy; exact hy) (.refl y)
    | single _ _ _ hlink hsingle =>
      -- a single statement adds no transfer
      cases hf : w.shared.db.bingxTransfers.find? y.id with
      | none =>
        have hnone := hsingle.transfer y.id hf
        rw [Table.find?_of_mem hy] at hnone
        cases hnone
      | some y₀ =>
        have hg : Guar w.shared w'.shared := hlink.guar
        obtain ⟨y', hy', hsame⟩ := hg.db.transfer y.id y₀ hf
        rw [Table.find?_of_mem hy] at hy'
        cases hy'
        exact hold (Table.mem_of_find? hf) hsame
    | @commit s v hc _ _ ho _ he =>
      have hafter := hy
      rw [he] at hy
      rcases Database.transfer_replay (Table.find?_of_mem hy) with ⟨hw, -⟩ | ⟨hf, -⟩
      · rcases ho.committed.scheduled (List.mem_filter.mpr ⟨hw, rfl⟩) with ⟨y₀, hy₀, hsame⟩ | hnew
        · exact hold hy₀ hsame
        · obtain ⟨p, holdMinutes, t, id, now, hjob, hp, ht, hst, rfl, hread, hclock⟩ := hnew
          have hid : t.id = p.transactionId := Table.key_of_find? ht
          refine ⟨_, List.mem_cons_self, ⟨s, v, p, holdMinutes, hc, hjob, hid.symm, hp, hread,
            hclock, rfl⟩, ?_, _, hafter, .refl _⟩
          rw [show (newTransfer t holdMinutes id now).transactionId = p.transactionId from hid]
          exact (hsafe.inv.sound.bare ht hst).2
      · exact hold (Table.mem_of_find? hf) (.refl y)

/-- Whatever runs side by side, every request for a transfer is sent no earlier than the
hold after the moment its paid webhook was handled, and when it is due never changes. -/
theorem sends_after_hold (hs : Opening start) (hr : Run (bank unicode) start tr w) :
    (∀ late x early q, tr = late ++ x :: early → x.request? = some q →
      ∃ y ∈ x.before.shared.db.bingxTransfers.rows, y.request = q ∧
        y.scheduledAt ≤ x.before.shared.ext.now ∧ ∃ p ∈ early, ScheduledBy y p) ∧
    ∀ x ∈ tr, ∀ id y, x.before.shared.db.bingxTransfers.find? id = some y →
      ∃ y', x.after.shared.db.bingxTransfers.find? id = some y' ∧
        y'.scheduledAt = y.scheduledAt := by
  constructor
  · rintro late x early q rfl hq
    obtain ⟨j, -, y, hy, hreq, hdue, -⟩ :=
      (payments_valid unicode).sends hs.inv hr (starts_any _) (x := x) (by simp) hq
    obtain ⟨hearly, -⟩ := hr.cut
    exact ⟨y, hy, hreq, hdue, exists_scheduledBy hs hearly y hy⟩
  · intro x hx id y hy
    obtain ⟨y', hy', hsame⟩ := (run_evolves hs hr hx).transfer id y hy
    exact ⟨y', hy', hsame.scheduledAt⟩

end

/-- A deposit is paid with a hold of a quarter of an hour, and once it is over a worker
claims the payout. -/
def heldUntilDue : List (Action signature) :=
  openDeposit ++ commit 0 :: .start 0 (.sbpPaymentWebhook alicePayment 15) :: runs 0 6 ++
    .give 0 "payout" :: runs 0 5 ++ .event (.tick 900000000) ::
      .start 0 (.processTransfer worker) :: runs 0 2

/-- The payout is sent when the hold is over. -/
theorem sends_after_hold_due : ∃ tr w x y, Run (bank .ascii) launch tr w ∧ x ∈ tr ∧
    x.request? = some payout ∧ y ∈ x.before.shared.db.bingxTransfers.rows ∧
    y.scheduledAt ≤ x.before.shared.ext.now ∧ ∃ p ∈ tr, ScheduledBy y p := by
  obtain ⟨late, x, early, w, hr, -, hx, -⟩ := Run.exists_of_steps_cons (bank .ascii) launch
    heldUntilDue (.run 0) [] (fun x => x.request?) (fun w => w.shared.ext.wire)
    (b := some payout) (c := [payout]) (by decide) (by decide)
  obtain ⟨y, hy, -, hdue, p, hp, hsched⟩ :=
    (sends_after_hold opening_launch hr).1 late x early payout rfl hx
  exact ⟨_, w, x, y, hr, by simp, hx, hy, hdue, p, by simp [hp], hsched⟩

end MoneyWay
