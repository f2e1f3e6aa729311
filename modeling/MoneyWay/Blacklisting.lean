import MoneyWay.Bans

/-!
# The writers of the blacklist and its reader

A deposit looks up the address and the recipient as they are written in the database. The
administrator's request writes an entry in that form and a chargeback copies what is in it
already; the form of the admin panel is stored as it was typed.
-/

set_option autoImplicit false

namespace MoneyWay

open Keyed ReadCommitted Python Prog Sql

/-- How a value of a type is looked up. -/
def normalForm (unicode : Unicode) (type : BlacklistType) (value : String) : String :=
  if type = .email then normalizeEmail unicode value else strip unicode value

/-- The value is the address of the user or the recipient of the deposit, up to letter case
in an address and up to white space around it. -/
def Hits (unicode : Unicode) (type : BlacklistType) (value : String) (r : DepositCreateRequest) :
    Prop :=
  type = .email ∧ normalForm unicode type value = unicode.lower r.user.email ∨
    type = .uid ∧ normalForm unicode type value = r.bingxUid

/-- The keys of the entries of which one is enough to refuse the deposit. -/
def LooksUp (unicode : Unicode) (r : DepositCreateRequest) (key : BlacklistType × String) : Prop :=
  key = (.email, unicode.lower r.user.email) ∨ key = (.uid, r.bingxUid)

/-- What a job submits to the blacklist. -/
inductive Submits (d : Database) : Job → BlacklistType → String → Prop
  | added (r : BlacklistCreateRequest) : Submits d (.addBlacklistEntry r) r.type r.value
  | created (id : String) (form : BlacklistForm) :
      Submits d (.manageBlacklist (.create id form)) form.type form.value
  | edited (id : String) (form : BlacklistForm) :
      Submits d (.manageBlacklist (.edit id form)) form.type form.value
  | payer {p : SBPChargebackWebhook} {t : Transaction} {u : User} :
      d.transactions.find? p.transactionId = some t → d.users.find? t.userId = some u →
      Submits d (.sbpChargebackWebhook p) .email u.email
  | recipient {p : SBPChargebackWebhook} {t : Transaction} :
      d.transactions.find? p.transactionId = some t →
      Submits d (.sbpChargebackWebhook p) .uid t.bingxUid

/-- A job of the admin panel submits only what is in normal form. -/
def TypedNormal (unicode : Unicode) (j : Job) (type : BlacklistType) (value : String) : Prop :=
  ∀ change, j = .manageBlacklist change → value = normalForm unicode type value

section Stored

variable {unicode : Unicode} {x : Txn signature} {s : Shared signature} {j : Job} {v : Result}
  {type : BlacklistType} {value : String} {e : BlacklistEntry} {r : DepositCreateRequest}

theorem mem_blacklistWrites {d : Database} {reason id : String} {now : Timestamp}
    (h : .blacklist e ∈ blacklistWrites d type value reason id now) : e.key = (type, value) :=
  Row.blacklist.inj (Option.some.inj (target_of_mem_blacklistWrites h))

/-- A chargeback writes two entries. -/
theorem mem_chargebackWrites {p : SBPChargebackWebhook} {d : Dossier} {db db' q : Database}
    {t : Transaction} {id id' : String} {now now₁ now₂ now₃ : Timestamp}
    (h : .blacklist e ∈ chargebackWrites p d db q (releaseWrites db' t) id id' now now₁ now₂ now₃) :
    e.key = (.email, d.email) ∨ e.key = (.uid, d.transaction.bingxUid) := by
  simp only [chargebackWrites, List.cons_append, List.mem_cons, List.mem_append, List.mem_map,
    reduceCtorEq, false_or, List.not_mem_nil, or_false, and_false, exists_false] at h
  rcases h with (h | h) | h
  · obtain ⟨p, hp⟩ := mem_releaseWrites h
    cases hp
  · exact .inl (mem_blacklistWrites h)
  · exact .inr (mem_blacklistWrites h)

theorem ChargebackOutcome.stored {p : SBPChargebackWebhook} {t : Transaction}
    (h : ChargebackOutcome x s p) (ht : s.db.transactions.find? p.transactionId = some t)
    (hrow : .blacklist e ∈ x.pending) : ∃ u, s.db.users.find? t.userId = some u ∧
      (e.key = (.email, u.email) ∨ e.key = (.uid, t.bingxUid)) := by
  cases h with
  | unmatched _ _ hpending | duplicate _ _ hpending | ineligible _ _ _ hpending =>
    simp [hpending] at hrow
  | @charged d u q release id id' now now₁ now₂ now₃ hd _ hu hemail _ _ _ hrel _ hpending =>
    obtain rfl : t = d.transaction := Option.some.inj (ht.symm.trans hd)
    obtain ⟨q', -, -, rfl, -⟩ := hrel
    rw [hpending] at hrow
    exact ⟨u, hu, hemail ▸ mem_chargebackWrites hrow⟩

/-- Only the administrator's request brings a value into its normal form. -/
theorem Outcome.stored (h : Outcome unicode j v x s) (hsub : Submits s.db j type value)
    (hrow : .blacklist e ∈ x.pending) (htype : e.type = type) :
    (∃ r, j = .addBlacklistEntry r) ∧ e.key = (type, normalForm unicode type value) ∨
      (∀ r, j ≠ .addBlacklistEntry r) ∧ e.key = (type, value) := by
  cases hsub with
  | added r =>
    obtain ⟨h, -⟩ := h
    cases h with
    | added hpending =>
      have he := Write.blacklist.inj (List.mem_singleton.mp (hpending ▸ hrow))
      exact .inl ⟨⟨r, rfl⟩, by rw [he, key_blacklisted]; rfl⟩
  | created id form =>
    obtain ⟨h, -⟩ := h
    cases h with
    | created _ hpending =>
      have he := Write.blacklist.inj (List.mem_singleton.mp (hpending ▸ hrow))
      exact .inr ⟨nofun, by rw [he]; rfl⟩
  | edited id form =>
    obtain ⟨h, -⟩ := h
    have hform (he : e = form.entry id) : e.key = (form.type, form.value) := by
      rw [he]
      rfl
    cases h with
    | ignored hpending => simp [hpending] at hrow
    | edited _ _ hpending | moved _ _ _ hpending =>
      exact .inr ⟨nofun, hform (by simpa [hpending] using hrow)⟩
  | @payer p t u ht hu =>
    obtain ⟨u', hu', hkey | hkey⟩ := h.1.stored ht hrow
    · obtain rfl : u = u' := Option.some.inj (hu.symm.trans hu')
      exact .inr ⟨nofun, hkey⟩
    · exact absurd ((congrArg Prod.fst hkey).symm.trans htype) nofun
  | @recipient p t ht =>
    obtain ⟨u, -, hkey | hkey⟩ := h.1.stored ht hrow
    · exact absurd ((congrArg Prod.fst hkey).symm.trans htype) nofun
    · exact .inr ⟨nofun, hkey⟩

/-- A row that a commit stores is there afterwards. -/
theorem Outcome.listed (h : Outcome unicode j v x s) (hrow : .blacklist e ∈ x.pending) :
    ((replay x.pending s.db).blacklist.find? e.key).isSome = true := by
  have hno : .unblacklist e.key ∉ x.pending := by
    intro hmem
    by_cases hj : ∃ change, j = .manageBlacklist change
    · obtain ⟨change, rfl⟩ := hj
      obtain ⟨h, -⟩ := h
      cases h with
      | created _ hpending | ignored hpending | edited _ _ hpending =>
        simp [hpending] at hmem
      | moved _ hne _ hpending =>
        have he := by simpa [hpending] using hrow
        have hkey := by simpa [hpending] using hmem
        rw [he] at hkey
        exact hne hkey
      | removed _ hpending => simp [hpending] at hrow
    · exact Outcome.deletes_none h (fun change hjob => hj ⟨change, hjob⟩) hmem
  simpa only [store_row, Database.row, Option.isSome_map] using
    isSome_row_of_mem hrow rfl (Database.removes_of_not_deleted hno)

/-- The lookup of a deposit that is hit reads the row if the value is in normal form. -/
theorem looksUp_iff (hhits : Hits unicode type value r) :
    LooksUp unicode r (type, value) ↔ value = normalForm unicode type value := by
  rcases hhits with ⟨rfl, he⟩ | ⟨rfl, he⟩
  · rw [he]
    simp [LooksUp]
  · rw [he]
    simp [LooksUp]

theorem looksUp_normalForm (hhits : Hits unicode type value r) :
    LooksUp unicode r (type, normalForm unicode type value) := by
  rcases hhits with ⟨rfl, he⟩ | ⟨rfl, he⟩
  · exact .inl (by rw [he])
  · exact .inr (by rw [he])

end Stored

/-! ## What a chargeback copies -/

/-- The recipient a job is given. -/
def Job.recipient? : Job → Option String
  | .createDeposit _ r => some r.bingxUid
  | _ => none

/-- The schema of a deposit has stripped the recipient, and each task of a worker is one
transaction. -/
def Validated (unicode : Unicode) (j : Job) : Prop :=
  j.Together ∧ ∀ uid ∈ j.recipient?, strip unicode uid = uid

instance (unicode : Unicode) : DecidablePred (Validated unicode) := fun _ =>
  inferInstanceAs (Decidable (_ ∧ _))

/-- Lower case puts no white space at the ends of a text. -/
def KeepsStripped (unicode : Unicode) : Prop :=
  ∀ s, strip unicode (unicode.lower (strip unicode s)) = unicode.lower (strip unicode s)

section

variable {unicode : Unicode} {start : Shared signature}
  {tr late early : List (Transition signature)} {x : Transition signature} {w : World signature}

theorem Registered.normal_email {d : Database} (h : Registered unicode d)
    (hlower : KeepsStripped unicode) {u : User} (hu : u ∈ d.users.rows) :
    u.email = normalForm unicode .email u.email := by
  obtain ⟨email, he⟩ := h u hu
  rw [normalForm, if_pos rfl, he]
  simp only [normalizeEmail]
  rw [hlower, unicode.lower_lower]

/-- Every stored recipient has been stripped. -/
theorem run_stripped (hs : Opening start) (hr : Run (bank unicode) start tr w)
    (hj : Contract.Starts (Validated unicode) tr) :
    ∀ t ∈ w.shared.db.transactions.rows, strip unicode t.bingxUid = t.bingxUid := by
  have hvalid : (payments unicode).Valid (bank unicode) (Validated unicode) :=
    (payments_valid unicode).mono fun _ _ => trivial
  induction hr with
  | nil => simp [World.idle, hs.transactions]
  | @snoc tr w w' a hr hstep ih =>
    have hj' : Contract.Starts (Validated unicode) tr := fun x hx =>
      hj x (List.mem_cons_of_mem _ hx)
    intro t ht
    have hfind := Table.find?_of_mem ht
    cases hold : w.shared.db.transactions.find? t.id with
    | some t₀ =>
      have hevolves := run_evolves hs (hr.snoc hstep) (x := ⟨w, a, w'⟩) List.mem_cons_self
      obtain ⟨t', ht', hmoves⟩ := hevolves.transaction t.id t₀ hold
      rw [hfind] at ht'
      cases ht'
      rw [hmoves.quote.bingxUid]
      exact ih hj' t₀ (Table.mem_of_find? hold)
    | none =>
      have hchange := (hvalid.run hs.inv hr hj').change hstep
      rcases hchange.together fun _ hj => hj.1 with ⟨-, he⟩ | ⟨s, v, -, hjob, ho, -, he⟩
      · have he : w'.shared.db = w.shared.db := he
        rw [he, hold] at hfind
        cases hfind
      · have ho : Outcome unicode s.job v s.txn w.shared := ho
        have he : w'.shared = ⟨replay s.txn.pending w.shared.db, w.shared.ext⟩ := he
        rw [he] at hfind
        rcases Database.transaction_replay hfind with ⟨hw, -⟩ | ⟨hf, -⟩
        · obtain ⟨settings, r, hcreate, hrecipient⟩ :=
            ho.committed.recipient (List.mem_filter.mpr ⟨hw, rfl⟩) hold
          rw [hrecipient]
          exact hjob.2 r.bingxUid (by rw [hcreate]; rfl)
        · rw [hold] at hf
          cases hf

/-! ## Writers and reader -/

/-- What a deposit of an amount within the limits raises when it is banned. -/
theorem banError_of_within {settings : Settings} {r : DepositCreateRequest}
    (hmin : settings.depositMinRub ≤ r.amountRub) (hmax : r.amountRub ≤ settings.depositMaxRub) :
    banError settings r = .conflict "Deposit is blocked by antifraud rules" :=
  if_neg (not_or.mpr ⟨Decimal.not_lt_of_le hmin, Decimal.not_lt_of_le hmax⟩)

/-- For every row that a writer of the blacklist stores and every deposit that the submitted
value hits: the deposit looks for the row exactly if the value was not typed into the admin
panel in another form than the normal one, and then every later such deposit is refused while
the row is there. -/
theorem writers_agree_iff (hs : Opening start) (hreg : Registered unicode start.db)
    (hlower : KeepsStripped unicode) (hr : Run (bank unicode) start (late ++ x :: early) w)
    (hj : Contract.Starts (Validated unicode) (late ++ x :: early)) {s : Session signature}
    {v : Result} (hc : x.Commits s v) {type : BlacklistType} {value : String}
    (hsub : Submits x.before.shared.db s.job type value) {e : BlacklistEntry}
    (hrow : .blacklist e ∈ s.txn.pending) (htype : e.type = type) {r : DepositCreateRequest}
    (hhits : Hits unicode type value r) :
    (LooksUp unicode r e.key ↔ TypedNormal unicode s.job type value) ∧
      (TypedNormal unicode s.job type value → (∀ y ∈ late, ¬ Lifts e.key y) →
        ∀ d ∈ w.sessions.rows, (∃ y ∈ late, ∃ j, y.action = .start d.id j) →
          ∀ settings : Settings, d.job = .createDeposit settings r →
          settings.depositMinRub ≤ r.amountRub → r.amountRub ≤ settings.depositMaxRub →
          Refused unicode w d (.conflict "Deposit is blocked by antifraud rules")) := by
  have htogether : (bank unicode).autocommit s.job = false := by
    generalize s.job = j at hsub
    cases hsub <;> rfl
  obtain ⟨ho, -, hafter⟩ := (payments_valid unicode).commits hs.inv hr (starts_any _) (by simp) hc
    htogether
  have ho : Outcome unicode s.job v s.txn x.before.shared := ho
  have hkey : LooksUp unicode r e.key ↔ TypedNormal unicode s.job type value := by
    rcases ho.stored hsub hrow htype with ⟨⟨r', hjob⟩, hkey⟩ | ⟨hne, hkey⟩
    · rw [hkey, hjob]
      exact iff_of_true (looksUp_normalForm hhits) nofun
    · rw [hkey, looksUp_iff hhits]
      refine ⟨fun h _ _ => h, fun h => ?_⟩
      obtain ⟨hearly, -⟩ := hr.cut
      generalize hjob : s.job = j at hsub h hne
      cases hsub with
      | added r' => exact absurd rfl (hne r')
      | created id form => exact h _ rfl
      | edited id form => exact h _ rfl
      | @payer p t u ht hu =>
        have hmem : u ∈ start.db.users.rows := by
          rw [← run_users hs hearly]
          exact Table.mem_of_find? hu
        exact hreg.normal_email hlower hmem
      | @recipient p t ht =>
        have hearly' : Contract.Starts (Validated unicode) early := fun y hy =>
          hj y (List.mem_append_right _ (List.mem_cons_of_mem _ hy))
        have hstripped := run_stripped hs hearly hearly' t (Table.mem_of_find? ht)
        exact hstripped.symm
  refine ⟨hkey, fun hnormal hkeep d hd hlate settings hjob hmin hmax => ?_⟩
  have hlisted : (x.after.shared.db.blacklist.find? e.key).isSome = true := by
    rw [hafter]
    exact ho.listed hrow
  have hlooks : e.key = (.email, unicode.lower r.user.email) ∨ e.key = (.uid, r.bingxUid) :=
    hkey.mpr hnormal
  obtain ⟨hstays, hdoomed⟩ := run_banned settings r hs hr hlooks hlisted hkeep
  obtain ⟨n, hd'⟩ := hdoomed d hd hlate hjob
  have hbanned : Banned unicode r w.shared.db := by
    rcases hlooks with he | he
    · exact .inl (he ▸ hstays)
    · exact .inr (he ▸ hstays)
  rw [← banError_of_within hmin hmax]
  exact hd'.refused hbanned (Table.find?_of_mem hd)

end

/-- The deposit of an open session, and whether it has returned. -/
def openedDeposit (i : ℕ) (w : World signature) : Option (Settings × DepositCreateRequest × Bool) :=
  match w.sessions.find? i with
  | some ⟨_, .createDeposit settings r, .done _, _⟩ => some (settings, r, true)
  | some ⟨_, .createDeposit settings r, _, _⟩ => some (settings, r, false)
  | _ => none

theorem of_openedDeposit {i : ℕ} {w : World signature} {settings : Settings}
    {r : DepositCreateRequest} {done : Bool} (h : openedDeposit i w = some (settings, r, done)) :
    ∃ s ∈ w.sessions.rows, s.id = i ∧ s.job = .createDeposit settings r ∧
      (done = true → ∃ v, s.prog = .done v) := by
  unfold openedDeposit at h
  split at h
  · next id settings' r' v txn hs =>
    cases h
    exact ⟨_, Table.mem_of_find? hs, Table.key_of_find? hs, rfl, fun _ => ⟨v, rfl⟩⟩
  · next id settings' r' prog txn _ hs =>
    cases h
    exact ⟨_, Table.mem_of_find? hs, Table.key_of_find? hs, rfl, nofun⟩
  · cases h

/-- Alice's deposit within the limits is open in a session; whether it has returned. -/
def aliceDeposits (i : ℕ) (w : World signature) : Option Bool :=
  (openedDeposit i w).bind fun o =>
    if o.1.depositMinRub ≤ o.2.1.amountRub ∧ o.2.1.amountRub ≤ o.1.depositMaxRub ∧
        o.2.1.user.email = "alice@example.com" then some o.2.2 else none

theorem of_aliceDeposits {i : ℕ} {w : World signature} {done : Bool}
    (h : aliceDeposits i w = some done) :
    ∃ s ∈ w.sessions.rows, ∃ settings r, s.id = i ∧ s.job = .createDeposit settings r ∧
      settings.depositMinRub ≤ r.amountRub ∧ r.amountRub ≤ settings.depositMaxRub ∧
      r.user.email = "alice@example.com" ∧ (done = true → ∃ v, s.prog = .done v) := by
  obtain ⟨⟨settings, r, b⟩, hopen, hobs⟩ := Option.bind_eq_some_iff.mp h
  split at hobs
  · next hlimits =>
    cases hobs
    obtain ⟨s, hs, hid, hjob, hdone⟩ := of_openedDeposit hopen
    exact ⟨s, hs, settings, r, hid, hjob, hlimits.1, hlimits.2.1, hlimits.2.2, hdone⟩
  · cases hobs

/-- The write stores the entry with this key. -/
def Write.bans (key : BlacklistType × String) : Write → Bool
  | .blacklist e => e.key = key
  | _ => false

/-- The commit of an administrator who submits this value, in the admin panel or not, and
stores the entry with this key. -/
def submits (panel : Bool) (type : BlacklistType) (value : String)
    (key : BlacklistType × String) (x : Transition signature) : Bool :=
  match x.commit? with
  | some ⟨_, .addBlacklistEntry r, _, txn⟩ =>
    !panel && decide (r.type = type ∧ r.value = value) && txn.pending.any (Write.bans key)
  | some ⟨_, .manageBlacklist (.create _ form), _, txn⟩ =>
    panel && decide (form.type = type ∧ form.value = value) && txn.pending.any (Write.bans key)
  | _ => false

theorem mem_of_any_bans {ws : List Write} {key : BlacklistType × String}
    (h : ws.any (Write.bans key) = true) : ∃ e, .blacklist e ∈ ws ∧ e.key = key := by
  obtain ⟨w, hw, he⟩ := List.any_eq_true.mp h
  cases w with
  | blacklist e => exact ⟨e, hw, of_decide_eq_true he⟩
  | _ => cases he

theorem of_submits {x : Transition signature} {panel : Bool} {type : BlacklistType}
    {value : String} {key : BlacklistType × String} (h : submits panel type value key x = true) :
    ∃ s v e, x.Commits s v ∧ Submits x.before.shared.db s.job type value ∧
      .blacklist e ∈ s.txn.pending ∧ e.key = key ∧
      (panel = false → ∀ change, s.job ≠ .manageBlacklist change) := by
  unfold submits at h
  split at h
  · next id r prog txn hc =>
    obtain ⟨v, hcommits⟩ := Transition.commits_of_commit? hc
    simp only [Bool.and_eq_true, decide_eq_true_eq] at h
    obtain ⟨⟨-, rfl, rfl⟩, hany⟩ := h
    obtain ⟨e, he, hkey⟩ := mem_of_any_bans hany
    exact ⟨_, v, e, hcommits, .added r, he, hkey, nofun⟩
  · next id id' form prog txn hc =>
    obtain ⟨v, hcommits⟩ := Transition.commits_of_commit? hc
    simp only [Bool.and_eq_true, decide_eq_true_eq] at h
    obtain ⟨⟨hpanel, rfl, rfl⟩, hany⟩ := h
    obtain ⟨e, he, hkey⟩ := mem_of_any_bans hany
    exact ⟨_, v, e, hcommits, .created id' form, he, hkey, fun hp => by simp [hp] at hpanel⟩
  · cases h

/-- The commit of something else than a change in the admin panel's blacklist. -/
def keepsBans (x : Transition signature) : Bool :=
  match x.commit? with
  | some ⟨_, .manageBlacklist _, _, _⟩ => false
  | _ => true

theorem not_lifts_of_keepsBans {x : Transition signature} {key : BlacklistType × String}
    (h : keepsBans x = true) : ¬ Lifts key x := by
  intro ⟨⟨id, job, prog, txn⟩, v, change, e, hc, hjob, hrest⟩
  obtain rfl : job = .manageBlacklist change := hjob
  rw [keepsBans, hc.commit?] at h
  cases h

/-- Alice's address with white space and a capital, as an administrator may have it. -/
def aliceBan : BlacklistCreateRequest where
  type := .email
  value := " Alice@example.com "
  reason := "fraud"
  comment := none

def aliceForm : BlacklistForm where
  type := .email
  value := "Alice@example.com"
  reason := "fraud"
  comment := none
  createdAt := 0

theorem registered_launch : Registered .ascii launch.db := by
  intro u hu
  obtain rfl : u = alice := List.mem_singleton.mp hu
  exact ⟨"alice@example.com", by decide⟩

/-- The administrator bans Alice, and then she tries to pay. -/
theorem writers_agree_iff_banned : ∃ w d, Refused .ascii w d
    (.conflict "Deposit is blocked by antifraud rules") := by
  obtain ⟨late, x, early, w, hr, hactions, hlate, hx, hw⟩ :=
    Run.exists_of_trace_cons (bank .ascii) launch
      [.start 0 (.addBlacklistEntry aliceBan), .give 0 "ban", .run 0, .run 0] (commit 0)
      [.start 1 (.createDeposit depositSettings aliceDeposit)]
      (submits false .email " Alice@example.com " (.email, "alice@example.com"))
      (fun late w => (late.all keepsBans, aliceDeposits 1 w))
      (b := true) (c := (true, some false)) (by decide)
  obtain ⟨s, v, e, hc, hsub, hrow, hkey, hnormal⟩ := of_submits hx
  obtain ⟨hkeeps, hw⟩ := Prod.mk.inj hw
  obtain ⟨d, hd, settings, r, hid, hjob, hmin, hmax, hemail, -⟩ := of_aliceDeposits hw
  have hhits : Hits .ascii .email " Alice@example.com " r := by
    refine .inl ⟨rfl, ?_⟩
    rw [hemail]
    decide
  obtain ⟨-, hbans⟩ := writers_agree_iff opening_launch registered_launch strip_lower_ascii hr
    (Contract.Starts.of_actions hactions (by decide)) hc hsub hrow (congrArg Prod.fst hkey) hhits
  obtain ⟨y, rfl, hy⟩ := List.map_eq_singleton_iff.mp hlate
  exact ⟨w, d, hbans (fun change hjob => absurd hjob (hnormal rfl change))
    (fun z hz => not_lifts_of_keepsBans (List.all_eq_true.mp hkeeps z hz)) d hd
    ⟨y, List.mem_singleton_self y, _, by rw [hid]; exact hy⟩ settings hjob hmin hmax⟩

/-- An address typed with a capital into the admin panel bans nobody. -/
theorem not_writers_agree : ¬ ∀ (unicode : Unicode) (start : Shared signature)
    (late early : List (Transition signature)) (x : Transition signature) (w : World signature),
    Opening start → Registered unicode start.db → KeepsStripped unicode →
    Run (bank unicode) start (late ++ x :: early) w →
    Contract.Starts (Validated unicode) (late ++ x :: early) →
    ∀ (s : Session signature) (v : Result), x.Commits s v →
    ∀ (type : BlacklistType) (value : String), Submits x.before.shared.db s.job type value →
    ∀ e : BlacklistEntry, .blacklist e ∈ s.txn.pending → e.type = type →
    ∀ r : DepositCreateRequest, Hits unicode type value r → (∀ y ∈ late, ¬ Lifts e.key y) →
    ∀ d ∈ w.sessions.rows, (∃ y ∈ late, ∃ j, y.action = .start d.id j) →
    ∀ settings : Settings, d.job = .createDeposit settings r →
    settings.depositMinRub ≤ r.amountRub → r.amountRub ≤ settings.depositMaxRub →
    Refused unicode w d (.conflict "Deposit is blocked by antifraud rules") := by
  intro h
  obtain ⟨late, x, early, w, hr, hactions, hlate, hx, hw⟩ :=
    Run.exists_of_trace_cons (bank .ascii) launch
      [.start 0 (.manageBlacklist (.create "ban" aliceForm)), .run 0] (commit 0)
      openDeposit (submits true .email "Alice@example.com" (.email, "Alice@example.com"))
      (fun late w => (late.all keepsBans, aliceDeposits 0 w))
      (b := true) (c := (true, some true)) (by decide)
  obtain ⟨s, v, e, hc, hsub, hrow, hkey, -⟩ := of_submits hx
  obtain ⟨hkeeps, hw⟩ := Prod.mk.inj hw
  obtain ⟨d, hd, settings, r, hid, hjob, hmin, hmax, hemail, hdone⟩ := of_aliceDeposits hw
  obtain ⟨v', hp⟩ := hdone rfl
  have hhits : Hits .ascii .email "Alice@example.com" r := by
    refine .inl ⟨rfl, ?_⟩
    rw [hemail]
    decide
  have hstarted : ∃ y ∈ late, ∃ j, y.action = .start d.id j := by
    have hmem : (.start 0 (.createDeposit depositSettings aliceDeposit) : Action signature) ∈
        late.map Transition.action := by
      rw [hlate]
      simp [openDeposit]
    obtain ⟨y, hy, hact⟩ := List.mem_map.mp hmem
    exact ⟨y, hy, _, by rw [hid]; exact hact⟩
  have hrefused := h .ascii launch late early x w opening_launch registered_launch
    strip_lower_ascii hr (Contract.Starts.of_actions hactions (by decide)) s v hc .email
    "Alice@example.com" hsub e hrow (congrArg Prod.fst hkey) r hhits
    (fun z hz => not_lifts_of_keepsBans (List.all_eq_true.mp hkeeps z hz)) d hd hstarted settings
    hjob hmin hmax
  exact hrefused.ne_done v' hp

end MoneyWay
