import MoneyWay.Chargebacks
import MoneyWay.Redelivery

/-!
# A chargeback bans for good

A chargeback enters the address of the user and the recipient in the blacklist. An entry
only goes when an administrator takes it away, and while it is there a deposit of that user
or to that recipient finds it, writes nothing and raises.
-/

set_option autoImplicit false

namespace MoneyWay

open Keyed ReadCommitted Python Prog Sql

/-! ## What takes an entry away -/

namespace Database

variable {d : Database} {ws : List Write} {key : BlacklistType × String}

/-- Only the deletion of an entry removes it. -/
theorem removes_of_not_deleted (hno : .unblacklist key ∉ ws) :
    ∀ w ∈ ws, Store.target (D := Database) w = some (.blacklist key) →
      Store.removes (D := Database) w = false := by
  intro w hw ht
  cases w with
  | unblacklist key' =>
    have he : key' = key := Row.blacklist.inj (Option.some.inj ht)
    exact absurd (he ▸ hw) hno
  | _ => rfl

/-- An entry stays that no write deletes. -/
theorem isSome_blacklist_replay (hno : .unblacklist key ∉ ws)
    (h : (d.blacklist.find? key).isSome = true) :
    ((replay ws d).blacklist.find? key).isSome = true := by
  have hrow : (Store.row (.blacklist key) d).isSome = true := by
    simpa only [store_row, row, Option.isSome_map] using h
  simpa only [store_row, row, Option.isSome_map] using
    isSome_row_replay (removes_of_not_deleted hno) hrow

end Database

/-- The entry that a change by hand edits or deletes. -/
def BlacklistChange.entryId? : BlacklistChange → Option String
  | .create _ _ => none
  | .edit id _ => some id
  | .remove id => some id

/-- An administrator edits or deletes the entry of the blacklist with this type and value. -/
def Lifts (key : BlacklistType × String) (x : Transition signature) : Prop :=
  ∃ s v change e, x.Commits s v ∧ s.job = .manageBlacklist change ∧
    x.before.shared.db.blacklist.find? key = some e ∧ change.entryId? = some e.id

section Keeps

variable {unicode : Unicode} {x : Txn signature} {s : Shared signature} {j : Job} {v : Result}
  {key : BlacklistType × String}

theorem PaidUpdate.deletes_none {y : BingxTransfer} {set : Transaction → Transaction}
    {ws : List Write} (h : PaidUpdate x s y set ws) : .unblacklist key ∉ ws := by
  obtain ⟨q, -, -, t, -, ⟨-, -, rfl⟩ | ⟨-, rfl⟩⟩ := h <;> simp

theorem Released.deletes_none {t : Transaction} {ws : List Write} (h : Released x s t ws) :
    .unblacklist key ∉ ws := by
  obtain ⟨q, -, -, rfl, -⟩ := h
  intro hmem
  obtain ⟨p, hp⟩ := mem_releaseWrites hmem
  cases hp

/-- Only the changes by hand delete entries. -/
theorem Outcome.deletes_none (h : Outcome unicode j v x s)
    (hj : ∀ change, j ≠ .manageBlacklist change) : .unblacklist key ∉ x.pending := by
  cases j with
  | createDeposit settings r =>
    obtain ⟨h, -⟩ := h
    cases h with
    | created hres _ _ _ _ halerts hpending =>
      rw [hpending]
      cases hres <;> rcases halerts with rfl | ⟨_, _, _, _, rfl⟩ <;> simp
  | sbpPaymentWebhook p holdMinutes =>
    obtain ⟨h, -⟩ := h
    cases h with
    | rejected _ _ _ _ hrel hpending => simp [hpending, hrel.deletes_none]
    | unmatched _ hpending | ignored _ _ hpending | mismatched _ _ _ _ _ hpending
    | paid _ _ _ _ _ _ _ _ _ _ hpending => simp [hpending]
  | sbpChargebackWebhook p =>
    obtain ⟨h, -⟩ := h
    cases h with
    | charged _ _ _ _ _ _ _ hrel _ hpending =>
      obtain ⟨q', -, -, rfl, -⟩ := hrel
      rw [hpending]
      intro hmem
      cases removes_chargebackWrites _ hmem
    | unmatched _ _ hpending | duplicate _ _ hpending | ineligible _ _ _ hpending =>
      simp [hpending]
  | processTransfer settings =>
    cases h with
    | idle hpending => simp [hpending]
    | @processed y now a ws _ _ hrec hpending =>
      rw [hpending]
      generalize answerRoute unicode a = route at hrec
      cases hrec with
      | completed _ _ hpaid | failed _ hpaid | escalated _ _ hpaid =>
        simp [hpaid.deletes_none, transferAudit]
      | held | retried => simp [transferAudit]
  | resetOnHold transferId =>
    obtain ⟨h, -⟩ := h
    cases h with
    | ignored hpending | reset _ _ hpending => simp [hpending]
  | addBlacklistEntry r =>
    obtain ⟨h, -⟩ := h
    cases h with
    | added hpending => simp [hpending]
  | manageBlacklist change => exact absurd rfl (hj change)
  | editPromoCode id form =>
    obtain ⟨h, -⟩ := h
    cases h with
    | ignored hpending | edited _ _ _ _ hpending => simp [hpending]
  | transactionDossier adminId transactionId =>
    obtain ⟨h, -⟩ := h
    cases h with
    | viewed hpending => simp [hpending]

/-- A change by hand deletes the entry it edits or deletes, and no other. -/
theorem ManageOutcome.deletes {change : BlacklistChange} (h : ManageOutcome x s change)
    (hmem : .unblacklist key ∈ x.pending) :
    ∃ e, s.db.blacklist.find? key = some e ∧ change.entryId? = some e.id := by
  cases h with
  | created _ hpending | ignored hpending | edited _ _ hpending => simp [hpending] at hmem
  | @moved form old hold _ _ hpending =>
    have hkey : key = old.key := by simpa [hpending] using hmem
    exact ⟨old, hkey ▸ hold, rfl⟩
  | @removed e he hpending =>
    have hkey : key = e.key := by simpa [hpending] using hmem
    exact ⟨e, hkey ▸ he, rfl⟩

end Keeps

section

variable {unicode : Unicode} {start : Shared signature} {tr : List (Transition signature)}
  {w : World signature} {key : BlacklistType × String}

/-- The step lemma of the blacklist. -/
theorem listed_step {x : Transition signature}
    (hc : (payments unicode).Change (bank unicode) (fun _ => True) x) (hkeep : ¬ Lifts key x)
    (h : (x.before.shared.db.blacklist.find? key).isSome = true) :
    (x.after.shared.db.blacklist.find? key).isSome = true := by
  cases hc with
  | silent _ he | send _ _ _ he | event _ _ he | finished _ _ _ he => rw [he]; exact h
  | single _ _ _ _ hsingle => rw [hsingle.blacklist key]; exact h
  | @commit s v hc _ _ ho _ he =>
    rw [he]
    refine Database.isSome_blacklist_replay (fun hmem => ?_) h
    by_cases hj : ∃ change, s.job = .manageBlacklist change
    · obtain ⟨change, hj⟩ := hj
      have ho : Outcome unicode s.job v s.txn x.before.shared := ho
      rw [hj] at ho
      obtain ⟨e, hrow, hid⟩ := ho.1.deletes hmem
      exact hkeep ⟨s, v, change, e, hc, hj, hrow, hid⟩
    · exact Outcome.deletes_none ho (fun change hjob => hj ⟨change, hjob⟩) hmem

end

/-! ## What a banned deposit does -/

/-- What a deposit raises that is banned. -/
def banError (settings : Settings) (r : DepositCreateRequest) : Error :=
  if r.amountRub < settings.depositMinRub ∨ settings.depositMaxRub < r.amountRub then
    .badRequest "Deposit amount is outside allowed limits"
  else .conflict "Deposit is blocked by antifraud rules"

/-- The user or the recipient of the deposit is on the blacklist. -/
def Banned (unicode : Unicode) (r : DepositCreateRequest) (d : Database) : Prop :=
  (d.blacklist.find? (.email, unicode.lower r.user.email)).isSome = true ∨
    (d.blacklist.find? (.uid, r.bingxUid)).isSome = true

/-- Where a banned deposit is, `n` operations at most before it raises. -/
inductive Barred (unicode : Unicode) (settings : Settings) (r : DepositCreateRequest) :
    ℕ → Handler Result → Prop
  | started : Barred unicode settings r 2 (program unicode (.createDeposit settings r))
  | looking {k : Bool → Handler Result} : k true = .throw (banError settings r) →
      Barred unicode settings r 1
        (.stmt (selectBlacklisted (unicode.lower r.user.email) r.bingxUid r.ipAddress) k)
  | refused : Barred unicode settings r 0 (.throw (banError settings r))

section Barred

variable {unicode : Unicode} {settings : Settings} {r : DepositCreateRequest}

/-- The lookup finds the entry. -/
theorem selectBlacklisted_banned {d : Database} (h : Banned unicode r d)
    (blocked : Row → LockMode → Bool) :
    selectBlacklisted (unicode.lower r.user.email) r.bingxUid r.ipAddress blocked d =
      .ok { value := true } := by
  have hany : (d.blacklist.rows.any fun e => decide (e.type = .email ∧
      e.value = unicode.lower r.user.email ∨ e.type = .uid ∧ e.value = r.bingxUid ∨
        e.type = .ip ∧ r.ipAddress = some e.value)) = true := by
    rw [List.any_eq_true]
    rcases h with h | h
    · obtain ⟨e, he⟩ := Option.isSome_iff_exists.mp h
      have hkey : e.key = (.email, unicode.lower r.user.email) := Table.key_of_find? he
      exact ⟨e, Table.mem_of_find? he, decide_eq_true (.inl (Prod.mk.inj hkey))⟩
    · obtain ⟨e, he⟩ := Option.isSome_iff_exists.mp h
      have hkey : e.key = (.uid, r.bingxUid) := Table.key_of_find? he
      exact ⟨e, Table.mem_of_find? he, decide_eq_true (.inr (.inl (Prod.mk.inj hkey)))⟩
  rw [selectBlacklisted, hany]

/-- A deposit reads the clock first, and then it is refused or looks at the blacklist. -/
theorem program_createDeposit : ∃ k : ℤ → Handler Result,
    program unicode (.createDeposit settings r) = .clock k ∧
      ∀ now, ∃ n < 2, Barred unicode settings r n (k now) := by
  refine ⟨_, rfl, fun now => ?_⟩
  by_cases h : r.amountRub < settings.depositMinRub ∨ settings.depositMaxRub < r.amountRub
  · refine ⟨0, by omega, ?_⟩
    have hrefused := @Barred.refused unicode settings r
    rw [banError, if_pos h] at hrefused
    simp only [if_pos h]
    exact hrefused
  · refine ⟨1, by omega, ?_⟩
    simp only [if_neg h]
    refine .looking ?_
    rw [banError, if_neg h]
    rfl

/-- A session that is banned: it has written nothing, and is about to raise. -/
structure Doomed (unicode : Unicode) (settings : Settings) (r : DepositCreateRequest) (n : ℕ)
    (s : Session signature) : Prop where
  job : s.job = .createDeposit settings r
  pending : s.txn.pending = []
  barred : Barred unicode settings r n s.prog

/-- It waits for nothing, and gets closer to its end with each operation. -/
theorem Doomed.advance {n : ℕ} {s : Session signature} {sh : Shared signature}
    (h : Doomed unicode settings r n s) (hb : Banned unicode r sh.db)
    (blocked : Row → LockMode → Bool) :
    s.prog = .throw (banError settings r) ∨ ∃ m < n, ∃ s',
      s.advance (bank unicode) blocked sh = some (sh, some s') ∧ s'.id = s.id ∧
        Doomed unicode settings r m s' := by
  obtain ⟨hjob, hpending, hbarred⟩ := h
  generalize hp : s.prog = p at hbarred
  cases hbarred with
  | refused => exact .inl rfl
  | started =>
    obtain ⟨k, hclock, hk⟩ := @program_createDeposit unicode settings r
    obtain ⟨m, hm, hbarred⟩ := hk (sh.ext.now)
    right
    refine ⟨m, hm, { s with prog := k sh.ext.now }, ?_, rfl, hjob, hpending, hbarred⟩
    unfold Session.advance
    rw [hp, hclock]
    rfl
  | @looking k hk =>
    right
    refine ⟨0, by omega, { s with prog := k true, txn := s.txn.executed sh { value := () } }, ?_,
      rfl, hjob, ?_, ?_⟩
    · have hauto : (bank unicode).autocommit s.job = false := by rw [hjob]; rfl
      unfold Session.advance
      rw [hp]
      simp only [hpending, replay_nil, selectBlacklisted_banned hb, hauto]
      rfl
    · simp [Txn.executed, hpending]
    · rw [hk]
      exact .refused

/-- On its own it raises, and changes nothing. -/
theorem Doomed.raises {n : ℕ} {s : Session signature} {w : World signature}
    (h : Doomed unicode settings r n s) (hb : Banned unicode r w.shared.db)
    (hs : w.sessions.find? s.id = some s) :
    ∃ k w' s', w.steps (bank unicode) (List.replicate k (.run s.id)) = some w' ∧
      w'.shared = w.shared ∧ w'.sessions.find? s.id = some s' ∧
      s'.prog = .throw (banError settings r) := by
  induction n using Nat.strongRecOn generalizing s w with
  | ind n ih =>
    rcases h.advance hb (w.blocked s.id) with hp | ⟨m, hm, s', hadv, hid, h'⟩
    · exact ⟨0, w, s, rfl, rfl, hs, hp⟩
    · let w₁ : World signature := ⟨w.shared, w.sessions.put s'⟩
      have hstep : w.step (bank unicode) (.run s.id) = some w₁ := by
        simp only [World.step, hs, Option.bind_some, hadv, Option.map_some]
        rfl
      have hs₁ : w₁.sessions.find? s'.id = some s' := Table.find?_put_self _ _
      obtain ⟨k, w', t, hsteps, hshared, ht, hp⟩ := ih m hm (w := w₁) h' hb hs₁
      rw [hid] at hsteps ht
      refine ⟨k + 1, w', t, ?_, hshared, ht, hp⟩
      simp only [List.replicate_succ, World.steps, hstep, Option.bind_some]
      exact hsteps

/-- The step lemma: a banned session stays so. It asks for no identifier and sends nothing. -/
theorem Doomed.step {n : ℕ} {s t : Session signature} {sh : Shared signature}
    (h : Doomed unicode settings r n s) (hb : Banned unicode r sh.db)
    (hstep : s.Step (bank unicode) sh t) : ∃ m, Doomed unicode settings r m t := by
  have hbusy : (∀ k, s.prog ≠ .fresh k) ∧ ∀ q k, s.prog ≠ .await q k := by
    have hbarred := h.barred
    generalize s.prog = p at hbarred
    cases hbarred with
    | started =>
      obtain ⟨k, hclock, -⟩ := @program_createDeposit unicode settings r
      simp [hclock]
    | looking | refused => simp
  cases hstep with
  | give i hp => exact absurd hp (hbusy.1 _)
  | answer a hp => exact absurd hp (hbusy.2 _ _)
  | @advance blocked sh' _ _ hadv =>
    cases h.advance hb blocked with
    | inl hp => cases hadv <;> simp_all
    | inr hnext =>
      obtain ⟨m, -, s', hadv', -, hd⟩ := hnext
      rw [hadv.advance_eq] at hadv'
      cases hadv'
      exact ⟨m, hd⟩

/-- A session is banned from its start. -/
theorem doomed_step {w w' : World signature} {a : Action signature}
    (hstep : w.step (bank unicode) a = some w') (hb : Banned unicode r w.shared.db)
    {s' : Session signature} (hs' : s' ∈ w'.sessions.rows)
    (hjob : s'.job = .createDeposit settings r)
    (h : ∀ s ∈ w.sessions.rows, s.id = s'.id → s.job = .createDeposit settings r →
      ∃ n, Doomed unicode settings r n s) :
    ∃ n, Doomed unicode settings r n s' := by
  cases World.session_cases hstep hs' with
  | inl hsame => exact h s' hsame.1 rfl hjob
  | inr hrest =>
    cases hrest with
    | inl hnew =>
      obtain ⟨j, -, he⟩ := hnew
      rw [he] at hjob ⊢
      obtain rfl : j = .createDeposit settings r := hjob
      exact ⟨2, rfl, rfl, .started⟩
    | inr hmoved =>
      obtain ⟨s, hs, hst, -⟩ := hmoved
      obtain ⟨n, hd⟩ := h s hs hst.id_eq.symm (hst.job_eq ▸ hjob)
      exact hd.step hb hst

end Barred

/-! ## From the chargeback on -/

section

variable {unicode : Unicode} {start : Shared signature} {late early : List (Transition signature)}
  {x : Transition signature} {w : World signature}

/-- A chargeback that charges a deposit back enters the address and the recipient. -/
theorem chargeback_lists (hs : Opening start) (hr : Run (bank unicode) start (late ++ x :: early) w)
    {p : SBPChargebackWebhook} {t : Transaction} {u : User}
    (he : Effective (.sbpChargebackWebhook p) x)
    (ht : x.before.shared.db.transactions.find? p.transactionId = some t)
    (hu : x.before.shared.db.users.find? t.userId = some u) {type : BlacklistType} {value : String}
    (hkey : type = .email ∧ value = u.email ∨ type = .uid ∧ value = t.bingxUid) (hne : value ≠ "") :
    (x.after.shared.db.blacklist.find? (type, value)).isSome = true := by
  obtain ⟨s, v, id, t₀, t', hc, hsame, habout, ht₀, ht', hchanged⟩ := he
  obtain rfl : p.transactionId = id := Option.some.inj habout
  obtain rfl : t = t₀ := Option.some.inj (ht.symm.trans ht₀)
  obtain ⟨p', hjob⟩ : ∃ p', s.job = .sbpChargebackWebhook p' := by
    cases hjob : s.job with
    | sbpChargebackWebhook p' => exact ⟨p', rfl⟩
    | _ => rw [hjob] at hsame; exact hsame.elim
  obtain rfl : p' = p := by rw [hjob] at hsame; exact hsame
  have htogether : (bank unicode).autocommit s.job = false := by rw [hjob]; rfl
  obtain ⟨ho, -, hafter⟩ := (payments_valid unicode).commits hs.inv hr (starts_any _) (by simp) hc
    htogether
  have ho : Outcome unicode s.job v s.txn x.before.shared := ho
  rw [hjob] at ho
  rw [hafter] at ht' ⊢
  -- a webhook that leaves the transaction as it was is not the one
  have hkept (hno : ∀ t, .transaction t ∉ s.txn.pending) : False := by
    rw [Database.transactions_replay fun t ht => hno t ht, ht] at ht'
    exact hchanged (congrArg Transaction.status (Option.some.inj ht')).symm
  cases ho.1 with
  | unmatched _ _ hpending | duplicate _ _ hpending | ineligible _ _ _ hpending =>
    exact (hkept (by simp [hpending])).elim
  | @charged d u' q release id id' now now₁ now₂ now₃ hrow _ hu' hemail _ _ _ hrel _ hpending =>
    obtain rfl : t = d.transaction := Option.some.inj (ht.symm.trans hrow)
    obtain rfl : u = u' := Option.some.inj (hu.symm.trans hu')
    obtain ⟨q', -, -, rfl, -⟩ := hrel
    rw [hpending]
    rw [← hemail] at hkey
    obtain ⟨e, hentry⟩ := blacklist_chargebackWrites hkey hne
    exact Option.isSome_iff_exists.mpr ⟨e, hentry⟩

/-- The run lemma: the entry stays, and the deposits that start are banned. -/
theorem run_banned (settings : Settings) (r : DepositCreateRequest) (hs : Opening start)
    (hr : Run (bank unicode) start (late ++ x :: early) w) {key : BlacklistType × String}
    (hkey : key = (.email, unicode.lower r.user.email) ∨ key = (.uid, r.bingxUid))
    (hx : (x.after.shared.db.blacklist.find? key).isSome = true)
    (hkeep : ∀ y ∈ late, ¬ Lifts key y) :
    (w.shared.db.blacklist.find? key).isSome = true ∧
      ∀ s ∈ w.sessions.rows, (∃ y ∈ late, ∃ j, y.action = .start s.id j) →
        s.job = .createDeposit settings r → ∃ n, Doomed unicode settings r n s := by
  induction late generalizing w with
  | nil =>
    obtain ⟨hr', hstep⟩ := hr.cut
    cases hr
    exact ⟨hx, by simp⟩
  | cons y late ih =>
    cases hr with
    | @snoc _ w₀ _ a hr hstep =>
      obtain ⟨hlisted, hdoomed⟩ := ih hr fun y hy => hkeep y (List.mem_cons_of_mem _ hy)
      have hchange := ((payments_valid unicode).run hs.inv hr (starts_any _)).change hstep
      have hb : Banned unicode r w₀.shared.db := by
        rcases hkey with rfl | rfl
        · exact .inl hlisted
        · exact .inr hlisted
      refine ⟨listed_step hchange (hkeep _ List.mem_cons_self) hlisted, ?_⟩
      intro s' hs' hstarted hjob
      refine doomed_step hstep hb hs' hjob fun s hold hid hjob' => ?_
      obtain ⟨z, hz, j, hact⟩ := hstarted
      rcases List.mem_cons.mp hz with rfl | hz
      · -- nothing with this id was open when the session started
        have hact : a = .start s'.id j := hact
        rw [hact] at hstep
        simp only [World.step, ← hid, Table.find?_of_mem hold] at hstep
        cases hstep
      · exact hdoomed s hold ⟨z, hz, j, by rw [hid]; exact hact⟩ hjob'

/-- The address of every user is as `create_user` writes it. -/
def Registered (unicode : Unicode) (d : Database) : Prop :=
  ∀ u ∈ d.users.rows, ∃ email, u.email = normalizeEmail unicode email

/-- The lookup is by the address that a chargeback has entered. -/
theorem Registered.lower_email {d : Database} (h : Registered unicode d) {u : User}
    (hu : u ∈ d.users.rows) : unicode.lower u.email = u.email := by
  obtain ⟨email, he⟩ := h u hu
  rw [he, normalizeEmail, unicode.lower_lower]

theorem run_users (hs : Opening start) {tr : List (Transition signature)}
    (hr : Run (bank unicode) start tr w) : w.shared.db.users = start.db.users := by
  induction hr with
  | nil => rfl
  | @snoc tr w w' a hr hstep ih =>
    have hevolves := run_evolves hs (hr.snoc hstep) (x := ⟨w, a, w'⟩) List.mem_cons_self
    exact hevolves.persists.users.trans ih

/-- The deposit of an open session is refused: it has written nothing, it does not return, it
raises nothing else, and on its own it gets there. -/
structure Refused (unicode : Unicode) (w : World signature) (s : Session signature) (e : Error) :
    Prop where
  pending : s.txn.pending = []
  ne_done : ∀ v, s.prog ≠ .done v
  raises : ∀ e', s.prog = .throw e' → e' = e
  ends : ∃ n w' s', w.steps (bank unicode) (List.replicate n (.run s.id)) = some w' ∧
    w'.shared = w.shared ∧ w'.sessions.find? s.id = some s' ∧ s'.prog = .throw e

theorem Doomed.refused {settings : Settings} {r : DepositCreateRequest} {n : ℕ}
    {s : Session signature} (h : Doomed unicode settings r n s) (hb : Banned unicode r w.shared.db)
    (hs : w.sessions.find? s.id = some s) : Refused unicode w s (banError settings r) := by
  have hraises := h.raises hb hs
  obtain ⟨-, hpending, hbarred⟩ := h
  obtain ⟨k, hclock, -⟩ := @program_createDeposit unicode settings r
  refine ⟨hpending, fun v hv => ?_, fun e' he => ?_, hraises⟩
  · rw [hv] at hbarred
    generalize hp : (Prog.done v : Handler Result) = p at hbarred
    cases hbarred with
    | started => rw [hclock] at hp; cases hp
    | looking | refused => cases hp
  · rw [he] at hbarred
    generalize hp : (Prog.throw e' : Handler Result) = p at hbarred
    cases hbarred with
    | started => rw [hclock] at hp; cases hp
    | looking => cases hp
    | refused => exact Prog.throw.inj hp

/-- After a chargeback, as long as its two entries are left alone, a deposit of that user or
to that recipient is refused. -/
theorem chargeback_bans (hs : Opening start) (hreg : Registered unicode start.db)
    (hr : Run (bank unicode) start (late ++ x :: early) w) {p : SBPChargebackWebhook}
    {t : Transaction} {u : User} (he : Effective (.sbpChargebackWebhook p) x)
    (ht : x.before.shared.db.transactions.find? p.transactionId = some t)
    (hu : x.before.shared.db.users.find? t.userId = some u)
    (hkeep : ∀ y ∈ late, ¬ Lifts (.email, u.email) y ∧ ¬ Lifts (.uid, t.bingxUid) y)
    {s : Session signature} (hopen : s ∈ w.sessions.rows)
    (hlate : ∃ y ∈ late, ∃ j, y.action = .start s.id j) {settings : Settings}
    {r : DepositCreateRequest} (hjob : s.job = .createDeposit settings r)
    (hhits : r.user.email = u.email ∨ r.bingxUid = t.bingxUid) :
    Refused unicode w s (banError settings r) := by
  have hfind := Table.find?_of_mem hopen
  have lists := @chargeback_lists unicode start late early x w hs hr p t u he ht hu
  rcases hhits with hemail | huid
  · have hmem : u ∈ start.db.users.rows := by
      rw [← run_users hs hr.cut.1]
      exact Table.mem_of_find? hu
    have hlower : unicode.lower r.user.email = u.email := by
      rw [hemail]
      exact hreg.lower_email hmem
    have hentry := lists (.inl ⟨rfl, rfl⟩) u.email_nonempty
    rw [← hlower] at hentry hkeep
    obtain ⟨hlisted, hdoomed⟩ := run_banned settings r hs hr (.inl rfl) hentry
      fun y hy => (hkeep y hy).1
    obtain ⟨n, hd⟩ := hdoomed s hopen hlate hjob
    exact hd.refused (.inl hlisted) hfind
  · have hne : t.bingxUid ≠ "" := by
      intro hempty
      have hlength := r.bingxUid_length.1
      rw [huid, hempty] at hlength
      exact absurd hlength (by decide)
    have hentry := lists (.inr ⟨rfl, rfl⟩) hne
    rw [← huid] at hentry hkeep
    obtain ⟨hlisted, hdoomed⟩ := run_banned settings r hs hr (.inr rfl) hentry
      fun y hy => (hkeep y hy).2
    obtain ⟨n, hd⟩ := hdoomed s hopen hlate hjob
    exact hd.refused (.inr hlisted) hfind

end

/-- Alice tries again after the chargeback. -/
theorem chargeback_bans_again : ∃ w s, Refused .ascii w s
    (.conflict "Deposit is blocked by antifraud rules") := by
  obtain ⟨late, early, x, w, s, p, t, y, hr, -, rfl, ⟨⟨v, hc⟩, hjob, -, hrow, -⟩, hb⟩ :=
    exists_commitsChargeback disputedDeposit
      (fun _ p t _ w => (t.status, t.userId, (w.sessions.find? 1).isNone,
        (w.shared.db.transactions.find? p.transactionId).map (·.status)))
      (b := (.paid, "alice", true, some .chargeback)) (by decide)
  simp only [Prod.mk.injEq] at hb
  obtain ⟨hpaid, huser, hfree, hafter⟩ := hb
  obtain ⟨hearly, hstep⟩ := hr.cut
  obtain ⟨t', ht', hst'⟩ := Option.map_eq_some_iff.mp hafter
  let again : Session signature :=
    ⟨1, .createDeposit depositSettings aliceDeposit,
      program .ascii (.createDeposit depositSettings aliceDeposit), {}⟩
  let w' : World signature := ⟨x.after.shared, x.after.sessions.put again⟩
  have hstart : x.after.step (bank .ascii) (.start 1 again.job) = some w' := by
    simp only [World.step, hfree, if_true]
    rfl
  have hr' : Run (bank .ascii) launch ([⟨x.after, .start 1 again.job, w'⟩] ++ x :: early) w' :=
    (hearly.snoc hstep).snoc hstart
  have heffective : Effective (.sbpChargebackWebhook p) x :=
    ⟨s, v, _, t, t', hc, by rw [hjob]; rfl, rfl, hrow, ht', by rw [hst', hpaid]; decide⟩
  have halice : x.before.shared.db.users.find? t.userId = some alice := by
    rw [run_users opening_launch hearly, huser]
    rfl
  have hkeep (key : BlacklistType × String) :
      ¬ Lifts key ⟨x.after, .start 1 again.job, w'⟩ := by
    rintro ⟨s, v, change, e, ⟨-, hact, -⟩, -⟩
    cases hact
  have hreg : Registered .ascii launch.db := by
    intro u hu
    obtain rfl : u = alice := List.mem_singleton.mp hu
    exact ⟨"alice@example.com", by decide⟩
  have hrefused := chargeback_bans opening_launch hreg hr' heffective hrow halice
    (fun y hy => by
      obtain rfl := List.mem_singleton.mp hy
      exact ⟨hkeep _, hkeep _⟩)
    (s := again) (Table.mem_put.mpr (.inl rfl)) ⟨_, List.mem_singleton_self _, _, rfl⟩ rfl
    (.inl rfl)
  exact ⟨w', again, hrefused⟩

end MoneyWay
