import MoneyWay.Coherence

/-!
# What a commit does to promo codes

The use count of a promo code is raised by a deposit and lowered by two webhooks, apart
from the transactions it counts. Here a commit's effect on both is said once: the count and
the transactions that are neither failed nor charged back move together, except where the
worker fails a transaction, which keeps its use.
-/

set_option autoImplicit false

namespace MoneyWay

open Keyed ReadCommitted Python Sql

instance : DecidablePred TransactionStatus.Absorbing := fun s =>
  inferInstanceAs (Decidable (s = .failed ∨ s = .chargeback))

/-- The transactions with this promo code that are neither failed nor charged back. -/
def Database.holders (d : Database) (id : String) : ℕ :=
  d.transactions.rows.countP fun t => decide (t.promoCodeId = some id ∧ ¬ t.status.Absorbing)

/-- What a commit does about the use of the promo code of the transaction it writes. -/
inductive UseChange where
  | reserve
  | release
  | keep
  deriving DecidableEq, Repr

/-- `createDeposit` reserves, the two webhooks release with the status they set, and the
worker sets `failed` and releases nothing. -/
def useChange (j : Job) (t : Transaction) : Option UseChange :=
  match j, t.status with
  | .createDeposit _ _, _ => some .reserve
  | .sbpPaymentWebhook _ _, .failed => some .release
  | .sbpChargebackWebhook _, .chargeback => some .release
  | .processTransfer _, .failed => some .keep
  | _, _ => none

/-- The transactions with this promo code for which a job with these writes makes a
change. -/
def changes (c : UseChange) (id : String) (j : Job) (ws : List Write) : List String :=
  ((ws.filterMap Write.transaction?).filter fun t =>
    decide (t.promoCodeId = some id ∧ useChange j t = some c)).map Transaction.id

/-! ## What a commit writes to promo codes and transactions -/

def Write.counted : Write → Bool
  | .transaction _ => true
  | .promoCode _ => true
  | _ => false

namespace Database

variable {d d' : Database} {id : String}

/-- The other tables do not matter to promo codes and transactions. -/
theorem replay_counted (ws : List Write) :
    (replay ws d).promoCodes = (replay (ws.filter Write.counted) d).promoCodes ∧
      (replay ws d).transactions = (replay (ws.filter Write.counted) d).transactions := by
  have hkey : ∀ d' : Database, d'.promoCodes = d.promoCodes → d'.transactions = d.transactions →
      (replay ws d').promoCodes = (replay (ws.filter Write.counted) d).promoCodes ∧
        (replay ws d').transactions = (replay (ws.filter Write.counted) d).transactions := by
    induction ws generalizing d with
    | nil => exact fun d' hp ht => ⟨hp, ht⟩
    | cons w ws ih =>
      intro d' hp ht
      cases w with
      | transaction t => exact ih _ hp (by simp [ht])
      | promoCode p => exact ih _ (by simp [hp]) ht
      | _ => exact ih _ hp ht
  exact hkey d rfl rfl

theorem holders_new {t : Transaction} (hfresh : d.transactions.find? t.id = none)
    (hd' : d'.transactions = d.transactions.put t) (ht : ¬ t.status.Absorbing) :
    d'.holders id = d.holders id + if t.promoCodeId = some id then 1 else 0 := by
  simp [holders, hd', Table.countP_put_new hfresh, ht]

theorem holders_old {t t' : Transaction} (hold : d.transactions.find? t'.id = some t)
    (hd' : d'.transactions = d.transactions.put t') (hcode : t'.promoCodeId = t.promoCodeId)
    (ht : ¬ t.status.Absorbing) :
    d'.holders id + (if t.promoCodeId = some id ∧ t'.status.Absorbing then 1 else 0) =
      d.holders id := by
  have hcount := Table.countP_put_old hold
    fun t => decide (t.promoCodeId = some id ∧ ¬ t.status.Absorbing)
  unfold holders
  rw [hd']
  by_cases hid : t.promoCodeId = some id <;> by_cases ht' : t'.status.Absorbing <;>
    simp [hcode, hid, ht, ht'] at hcount ⊢ <;> omega

/-- A transaction that holds a use is counted. -/
theorem holders_pos {t : Transaction} (hd : d.transactions.find? t.id = some t)
    (hcode : t.promoCodeId = some id) (ht : ¬ t.status.Absorbing) : 0 < d.holders id :=
  List.countP_pos_iff.mpr ⟨t, Table.mem_of_find? hd, by simp [hcode, ht]⟩

end Database

theorem changes_counted (c : UseChange) (id : String) (j : Job) (ws : List Write) :
    changes c id j (ws.filter Write.counted) = changes c id j ws := by
  have hwrite : ∀ w : Write, (if w.counted = true then w.transaction? else none) =
      w.transaction? := by
    intro w
    cases w <;> rfl
  rw [changes, changes, List.filterMap_filter, funext hwrite]

/-- One transaction is written. -/
theorem changes_eq {c : UseChange} {id : String} {j : Job} {ws : List Write} {t : Transaction}
    (h : ws.filterMap Write.transaction? = [t]) :
    changes c id j ws =
      if t.promoCodeId = some id ∧ useChange j t = some c then [t.id] else [] := by
  rw [changes, h]
  by_cases hc : t.promoCodeId = some id ∧ useChange j t = some c
  · simp only [List.filter, decide_eq_true hc, if_pos hc, List.map_cons, List.map_nil]
  · simp only [List.filter, decide_eq_false hc, if_neg hc, List.map_nil]

theorem length_changes {j : Job} {ws : List Write} {t : Transaction} {change : Option UseChange}
    (id : String) (c : UseChange) (h : ws.filterMap Write.transaction? = [t])
    (hc : useChange j t = change) :
    (changes c id j ws).length = if t.promoCodeId = some id ∧ change = some c then 1 else 0 := by
  rw [changes_eq h, hc]
  split <;> rfl

/-- The uses are covered: no transaction has an unknown promo code, and the count of a code
is at least the number of transactions that hold it. -/
structure Backed (d : Database) : Prop where
  stored : ∀ t ∈ d.transactions.rows, ∀ id ∈ t.promoCodeId, ∃ p, d.promoCodes.find? id = some p
  used : ∀ id p, d.promoCodes.find? id = some p → d.holders id ≤ p.usedCount

section Commit

variable {unicode : Unicode} {x : Txn signature} {s : Shared signature}

/-- The writes of a commit to promo codes and transactions. -/
inductive Counts (unicode : Unicode) (x : Txn signature) (s : Shared signature) :
    Job → List Write → Prop
  | nothing {j : Job} : Counts unicode x s j []
  | reserved {settings : Settings} {r : DepositCreateRequest} {discount : Decimal}
      {reserve : List Write} {t : Transaction} :
      Reserved s r.promoCode t.promoCodeId discount reserve →
      s.db.transactions.find? t.id = none → t.status = .pending →
      Counts unicode x s (.createDeposit settings r) (reserve ++ [.transaction t])
  | moved {j : Job} {t t' : Transaction} : s.db.transactions.find? t'.id = some t →
      t'.promoCodeId = t.promoCodeId → ¬ t.status.Absorbing → ¬ t'.status.Absorbing →
      useChange j t' = none → Counts unicode x s j [.transaction t']
  | released {j : Job} {t t' : Transaction} {ws : List Write} :
      s.db.transactions.find? t'.id = some t → t'.promoCodeId = t.promoCodeId →
      ¬ t.status.Absorbing → t'.status.Absorbing → useChange j t' = some .release →
      Released x s t ws → Counts unicode x s j (.transaction t' :: ws)
  | kept {settings : WorkerSettings} {y : BingxTransfer} {a : Answer} {payload : Json}
      {t t' : Transaction} : x.calls = [(y.request, a)] → answerRoute unicode a = .fail payload →
      y ∈ s.db.bingxTransfers.rows → s.db.transactions.find? y.transactionId = some t →
      t.status = .paid → t'.id = t.id → t'.promoCodeId = t.promoCodeId → t'.status = .failed →
      Counts unicode x s (.processTransfer settings) [.transaction t']
  | edited {id : String} {form : PromoCodeForm} {p p' : PromoCode} :
      s.db.promoCodes.find? p'.id = some p → p'.usedCount = p.usedCount →
      Counts unicode x s (.editPromoCode id form) [.promoCode p']

theorem counted_blacklistWrites (d : Database) (type : BlacklistType)
    (value reason id : String) (now : Timestamp) :
    (blacklistWrites d type value reason id now).filter Write.counted = [] := by
  unfold blacklistWrites
  split <;> simp [Write.counted]

theorem counted_cancelWrites (d : Database) (transactionId : String) (now : Timestamp) :
    (cancelWrites d transactionId now).filter Write.counted = [] := by
  rw [List.filter_eq_nil_iff]
  intro w hw
  obtain ⟨y, rfl⟩ := mem_cancelWrites hw
  simp [Write.counted]

theorem counted_releaseWrites (d : Database) (t : Transaction) :
    (releaseWrites d t).filter Write.counted = releaseWrites d t := by
  rw [List.filter_eq_self]
  intro w hw
  obtain ⟨p, rfl⟩ := mem_releaseWrites hw
  rfl

theorem counts_deposit {settings : Settings} {r : DepositCreateRequest} {v : Result}
    (h : DepositOutcome x s settings r v) :
    Counts unicode x s (.createDeposit settings r) (x.pending.filter Write.counted) := by
  cases h with
  | @created promoCodeId discount commission amountUsdt reserve alerts id now now' t hres _
      hstored hfresh _ halerts hpending =>
    have hreserve : reserve.filter Write.counted = reserve := by
      cases hres <;> simp [Write.counted]
    obtain rfl : t.promoCodeId = promoCodeId := hstored.promoCodeId
    have halerts : alerts.filter Write.counted = [] := by
      rcases halerts with rfl | ⟨_, _, _, _, rfl⟩ <;> simp [Write.counted]
    have hcounted : x.pending.filter Write.counted = reserve ++ [.transaction t] := by
      rw [hpending]
      simp [List.filter_cons, Write.counted, hreserve, halerts]
    rw [hcounted]
    exact .reserved hres hfresh hstored.status

theorem counts_payment {p : SBPPaymentWebhook} {holdMinutes : ℤ}
    (h : PaymentOutcome x s p holdMinutes) :
    Counts unicode x s (.sbpPaymentWebhook p holdMinutes) (x.pending.filter Write.counted) := by
  cases h with
  | unmatched _ hpending => simpa [hpending, Write.counted] using .nothing
  | ignored _ _ hpending => simpa [hpending] using .nothing
  | mismatched _ _ _ _ _ hpending => simpa [hpending, Write.counted] using .nothing
  | @rejected t now now' release _ ht hst _ hrel hpending =>
    obtain ⟨q, -, -, hrelease, -⟩ := id hrel
    have hcounted : x.pending.filter Write.counted =
        .transaction (t.reject p.sbpPaymentId now) :: release := by
      rw [hpending, hrelease]
      simp [List.filter_cons, Write.counted, counted_releaseWrites]
    have hfind : s.db.transactions.find? t.id = some t := by rw [Table.key_of_find? ht, ht]
    rw [hcounted]
    exact .released hfind rfl (by simp [TransactionStatus.Absorbing, hst]) (.inl rfl) rfl hrel
  | @paid t _ _ _ _ now _ _ _ _ ht hst _ _ _ _ _ _ _ hpending =>
    have hfind : s.db.transactions.find? t.id = some t := by rw [Table.key_of_find? ht, ht]
    rw [hpending]
    simp only [List.filter_cons, Write.counted, List.filter_nil, if_true, Bool.false_eq_true,
      if_false]
    exact .moved hfind rfl (by simp [TransactionStatus.Absorbing, hst])
      (by simp [TransactionStatus.Absorbing, Transaction.pay]) rfl

theorem counts_chargeback {p : SBPChargebackWebhook} (h : ChargebackOutcome x s p) :
    Counts unicode x s (.sbpChargebackWebhook p) (x.pending.filter Write.counted) := by
  cases h with
  | unmatched _ _ hpending => simpa [hpending, Write.counted] using .nothing
  | duplicate _ _ hpending => simpa [hpending] using .nothing
  | ineligible _ _ _ hpending => simpa [hpending, Write.counted] using .nothing
  | @charged d u q release id' id'' now now₁ now₂ now₃ ht hst _ _ _ _ _ hrel _ hpending =>
    obtain ⟨q', -, -, hrelease, -⟩ := id hrel
    have hcounted : x.pending.filter Write.counted =
        .transaction (d.transaction.dispute now) :: release := by
      rw [hpending, chargebackWrites, ← cancelWrites, hrelease]
      simp [List.filter_cons, Write.counted, counted_releaseWrites, counted_blacklistWrites,
        counted_cancelWrites]
    have hfind : s.db.transactions.find? d.transaction.id = some d.transaction := by
      rw [Table.key_of_find? ht, ht]
    have hlive : ¬ d.transaction.status.Absorbing := by
      rintro (he | he) <;> simp [he, chargebackEligibleStatuses] at hst
    rw [hcounted]
    exact .released hfind rfl hlive (.inr rfl) rfl hrel

/-- The guarded update of the worker, where it does not fail the transaction. -/
theorem counts_paidUpdate {settings : WorkerSettings} {y : BingxTransfer}
    {set : Transaction → Transaction} {ws : List Write} (h : PaidUpdate x s y set ws)
    (hset : ∀ t, (set t).id = t.id ∧ (set t).promoCodeId = t.promoCodeId ∧
      ¬ (set t).status.Absorbing) :
    Counts unicode x s (.processTransfer settings) ws := by
  obtain ⟨q, -, -, t, -, ⟨hst, ht, rfl⟩ | ⟨-, rfl⟩⟩ := h
  · obtain ⟨hid, hcode, hlive⟩ := hset t
    have hnone : useChange (.processTransfer settings) (set t) = none := by
      unfold useChange
      split <;> simp_all [TransactionStatus.Absorbing]
    refine .moved ?_ hcode (by simp [TransactionStatus.Absorbing, hst]) hlive hnone
    rw [hid, Table.key_of_find? ht, ht]
  · exact .nothing

theorem counted_paidUpdate {y : BingxTransfer} {set : Transaction → Transaction} {ws : List Write}
    (h : PaidUpdate x s y set ws) : ws.filter Write.counted = ws := by
  obtain ⟨q, -, -, t, -, ⟨-, -, rfl⟩ | ⟨-, rfl⟩⟩ := h <;> simp [Write.counted]

theorem counts_worker {settings : WorkerSettings} {v : Result}
    (h : WorkerOutcome x s unicode settings v) :
    Counts unicode x s (.processTransfer settings) (x.pending.filter Write.counted) := by
  cases h with
  | idle hpending _ => simpa [hpending] using .nothing
  | @processed y now a ws hclaimed hcalls hrec hpending =>
    rw [hpending]
    generalize hroute : answerRoute unicode a = route at hrec
    cases hrec with
    | completed _ _ hp =>
      simp only [List.cons_append, List.filter_cons, List.filter_append, Write.counted,
        transferAudit, counted_paidUpdate hp, List.filter_nil, List.append_nil,
        Bool.false_eq_true, if_false]
      exact counts_paidUpdate hp fun t =>
        ⟨rfl, rfl, by simp [Transaction.complete, TransactionStatus.Absorbing]⟩
    | held => simpa [Write.counted, transferAudit] using .nothing
    | failed _ hp =>
      simp only [List.cons_append, List.filter_cons, List.filter_append, Write.counted,
        transferAudit, counted_paidUpdate hp, List.filter_nil, List.append_nil,
        Bool.false_eq_true, if_false]
      obtain ⟨q, -, -, t, -, ⟨hst, ht, rfl⟩ | ⟨-, rfl⟩⟩ := hp
      · exact .kept hcalls hroute (Table.mem_of_find? hclaimed.row) ht hst rfl rfl rfl
      · exact .nothing
    | retried => simpa [Write.counted] using .nothing
    | escalated _ _ hp =>
      simp only [List.cons_append, List.filter_cons, List.filter_append, Write.counted,
        transferAudit, counted_paidUpdate hp, List.filter_nil, List.append_nil,
        Bool.false_eq_true, if_false]
      exact counts_paidUpdate hp fun t =>
        ⟨rfl, rfl, by simp [Transaction.escalate, TransactionStatus.Absorbing]⟩

/-- What a job that commits has written to promo codes and transactions. -/
theorem Outcome.counts {j : Job} {v : Result} (h : Outcome unicode j v x s) :
    Counts unicode x s j (x.pending.filter Write.counted) := by
  cases j with
  | createDeposit settings r => exact counts_deposit h.1
  | sbpPaymentWebhook p holdMinutes => exact counts_payment h.1
  | sbpChargebackWebhook p => exact counts_chargeback h.1
  | processTransfer settings => exact counts_worker h
  | resetOnHold transferId =>
    cases h.1 with
    | ignored hpending => simpa [hpending] using .nothing
    | reset _ _ hpending => simpa [hpending, Write.counted] using .nothing
  | addBlacklistEntry r =>
    cases h.1 with
    | added hpending => simpa [hpending, Write.counted] using .nothing
  | manageBlacklist change =>
    have hnone : x.pending.filter Write.counted = [] := by
      cases h.1 <;> simp [*, Write.counted]
    rw [hnone]
    exact .nothing
  | editPromoCode id form =>
    cases h.1 with
    | ignored hpending => simpa [hpending] using .nothing
    | edited hp hid hused _ hpending =>
      have hcode := Table.key_of_find? hp
      simpa [hpending, Write.counted] using .edited (by rw [hid, hcode, hp]) hused
  | transactionDossier adminId transactionId =>
    cases h.1 with
    | viewed hpending => simpa [hpending, Write.counted] using .nothing

/-- A reservation writes no transaction besides the new one. -/
theorem Reserved.written {promoCode promoCodeId : Option String} {discount : Decimal}
    {reserve : List Write} (h : Reserved s promoCode promoCodeId discount reserve)
    (t : Transaction) : (reserve ++ [Write.transaction t]).filterMap Write.transaction? = [t] := by
  cases h <;> rfl

/-- A release writes no transaction. -/
theorem Released.written {t : Transaction} {ws : List Write} (h : Released x s t ws)
    (t' : Transaction) : (Write.transaction t' :: ws).filterMap Write.transaction? = [t'] := by
  obtain ⟨q, -, -, rfl, -⟩ := h
  rw [List.filterMap_cons, filterMap_releaseWrites _ _ fun _ => rfl]
  rfl

/-- The guard of a release never fails: the transaction itself is one of those counted. -/
theorem Released.eq {t : Transaction} {ws : List Write} (h : Released x s t ws)
    (hseen : ∀ q ∈ x.snapshots, Backed q.db) (ht : ¬ t.status.Absorbing) :
    t.promoCodeId = none ∧ ws = [] ∨
      ∃ p, t.promoCodeId = some p.id ∧ s.db.promoCodes.find? p.id = some p ∧ 0 < p.usedCount ∧
        ws = [.promoCode { p with usedCount := p.usedCount - 1 }] := by
  obtain ⟨q, hq, hrow, rfl, hsame⟩ := h
  have hbacked := hseen q hq
  cases hcode : t.promoCodeId with
  | none => exact .inl ⟨rfl, by simp [releaseWrites, hcode]⟩
  | some id =>
    obtain ⟨p, hp⟩ := hbacked.stored t (Table.mem_of_find? hrow) id hcode
    have hpos := Database.holders_pos hrow hcode ht
    have hused : 0 < p.usedCount := hpos.trans_le (hbacked.used id p hp)
    have hid : p.id = id := Table.key_of_find? hp
    have hwrites : releaseWrites q.db t =
        [.promoCode { p with usedCount := p.usedCount - 1 }] := by
      simp [releaseWrites, hcode, hp, hused]
    have hnow := hsame { p with usedCount := p.usedCount - 1 } (by simp [hwrites])
    refine .inr ⟨p, by rw [hid], ?_, hused, hwrites⟩
    rw [hnow, hid, hp]

/-- A commit and promo code `id`: its row before and after, and the transactions that hold
a use of it. -/
structure Accounted (j : Job) (ws : List Write) (d : Database) (id : String) (p p' : PromoCode) :
    Prop where
  found : (replay ws d).promoCodes.find? id = some p'
  used : p'.usedCount + (changes .release id j ws).length =
    p.usedCount + (changes .reserve id j ws).length
  holders : (replay ws d).holders id + (changes .release id j ws).length +
    (changes .keep id j ws).length = d.holders id + (changes .reserve id j ws).length
  limit : p'.usedCount ≤ p.usedCount ∨ ∀ m ∈ p'.maxUses, (p'.usedCount : ℤ) ≤ m

variable {j : Job} {ws : List Write} {id : String} {p : PromoCode}

theorem accounted_reserved {settings : Settings} {r : DepositCreateRequest} {discount : Decimal}
    {reserve : List Write} {t : Transaction}
    (hres : Reserved s r.promoCode t.promoCodeId discount reserve)
    (hfresh : s.db.transactions.find? t.id = none) (hst : t.status = .pending)
    (hp : s.db.promoCodes.find? id = some p) :
    ∃ p', Accounted (.createDeposit settings r) (reserve ++ [.transaction t]) s.db id p p' := by
  have hlive : ¬ t.status.Absorbing := by simp [TransactionStatus.Absorbing, hst]
  have hlen (c : UseChange) := length_changes id c (hres.written t)
    (show useChange (.createDeposit settings r) t = some .reserve by simp [useChange])
  have hholders : (replay (reserve ++ [.transaction t]) s.db).holders id =
      s.db.holders id + if t.promoCodeId = some id then 1 else 0 := by
    refine Database.holders_new hfresh ?_ hlive
    generalize t.promoCodeId = code at hres
    cases hres <;> simp
  generalize t.promoCodeId = code at hres hlen hholders
  cases hres with
  | none _ =>
    exact ⟨p, hp, by simp only [hlen]; simp, by simp only [hlen, hholders]; simp, .inl le_rfl⟩
  | code p₀ _ hp₀ _ hlimit =>
    by_cases hid : p₀.id = id
    · subst hid
      rw [hp] at hp₀
      cases hp₀
      refine ⟨{ p with usedCount := p.usedCount + 1 }, Table.find?_put_self _ _,
        by simp only [hlen]; simp, by simp only [hlen, hholders]; simp, .inr fun m hm => ?_⟩
      have := hlimit m hm
      push_cast
      omega
    · have hkept := Table.find?_put_ne s.db.promoCodes
        (r := { p₀ with usedCount := p₀.usedCount + 1 }) hid
      exact ⟨p, hkept.trans hp, by simp only [hlen]; simp [hid],
        by simp only [hlen, hholders]; simp [hid], .inl le_rfl⟩

theorem accounted_released {t t' : Transaction}
    (ht : s.db.transactions.find? t'.id = some t) (hcode : t'.promoCodeId = t.promoCodeId)
    (hlive : ¬ t.status.Absorbing) (hdead : t'.status.Absorbing)
    (hchange : useChange j t' = some .release) (hrel : Released x s t ws)
    (hseen : ∀ q ∈ x.snapshots, Backed q.db) (hp : s.db.promoCodes.find? id = some p) :
    ∃ p', Accounted j (.transaction t' :: ws) s.db id p p' := by
  have hwrites := hrel.eq hseen hlive
  have hlen (c : UseChange) := length_changes id c (hrel.written t') hchange
  have hput : (replay (.transaction t' :: ws) s.db).transactions = s.db.transactions.put t' := by
    rcases hwrites with ⟨-, rfl⟩ | ⟨p₀, -, -, -, rfl⟩ <;> simp
  have hholders := @Database.holders_old _ _ id _ _ ht hput hcode hlive
  rw [hcode] at hlen
  rcases hwrites with ⟨hnone, rfl⟩ | ⟨p₀, hsome, hp₀, hpos, rfl⟩
  · simp only [hnone] at hlen hholders
    refine ⟨p, hp, by simp only [hlen]; simp, ?_, .inl le_rfl⟩
    simp only [hlen]
    simpa using hholders
  · simp only [hsome, hdead, and_true] at hlen hholders
    by_cases hid : p₀.id = id
    · subst hid
      rw [hp] at hp₀
      cases hp₀
      refine ⟨{ p with usedCount := p.usedCount - 1 }, Table.find?_put_self _ _, ?_, ?_,
        .inl (Nat.sub_le _ _)⟩
      · simp only [hlen]
        simp
        omega
      · simp only [hlen]
        simpa using hholders
    · have hkept := Table.find?_put_ne s.db.promoCodes
        (r := { p₀ with usedCount := p₀.usedCount - 1 }) hid
      refine ⟨p, hkept.trans hp, by simp only [hlen]; simp [hid], ?_, .inl le_rfl⟩
      simp only [hlen]
      simpa [hid] using hholders

/-- One transaction is written that does not release its use. -/
theorem accounted_transaction {t t' : Transaction} {change : Option UseChange}
    (ht : s.db.transactions.find? t'.id = some t) (hcode : t'.promoCodeId = t.promoCodeId)
    (hlive : ¬ t.status.Absorbing) (hchange : useChange j t' = change)
    (hkeep : change = none ∧ ¬ t'.status.Absorbing ∨ change = some .keep ∧ t'.status.Absorbing)
    (hp : s.db.promoCodes.find? id = some p) :
    ∃ p', Accounted j [.transaction t'] s.db id p p' := by
  have hput : (replay [.transaction t'] s.db).transactions = s.db.transactions.put t' := rfl
  have hwritten : [Write.transaction t'].filterMap Write.transaction? = [t'] := rfl
  have hlen (c : UseChange) := length_changes id c hwritten hchange
  have hholders := @Database.holders_old _ _ id _ _ ht hput hcode hlive
  rw [hcode] at hlen
  refine ⟨p, hp, ?_, ?_, .inl le_rfl⟩
  · simp only [hlen]
    rcases hkeep with ⟨rfl, -⟩ | ⟨rfl, -⟩ <;> simp
  · simp only [hlen]
    rcases hkeep with ⟨rfl, ht'⟩ | ⟨rfl, ht'⟩ <;> simpa [ht'] using hholders

theorem accounted_edited {p₀ p₁ : PromoCode} (hp₀ : s.db.promoCodes.find? p₁.id = some p₀)
    (hused : p₁.usedCount = p₀.usedCount) (hp : s.db.promoCodes.find? id = some p) :
    ∃ p', Accounted j [.promoCode p₁] s.db id p p' := by
  by_cases hid : p₁.id = id
  · subst hid
    rw [hp] at hp₀
    cases hp₀
    exact ⟨p₁, Table.find?_put_self _ _, congrArg (· + 0) hused, rfl, .inl hused.le⟩
  · exact ⟨p, (Table.find?_put_ne s.db.promoCodes hid).trans hp, rfl, rfl, .inl le_rfl⟩

/-- The step lemma: what a commit does to a promo code and to the transactions with it. -/
theorem Counts.accounted (h : Counts unicode x s j ws) (hseen : ∀ q ∈ x.snapshots, Backed q.db)
    (hp : s.db.promoCodes.find? id = some p) : ∃ p', Accounted j ws s.db id p p' := by
  cases h with
  | nothing => exact ⟨p, hp, rfl, rfl, .inl le_rfl⟩
  | reserved hres hfresh hst => exact accounted_reserved hres hfresh hst hp
  | moved ht hcode hlive hlive' hnone =>
    exact accounted_transaction ht hcode hlive hnone (.inl ⟨rfl, hlive'⟩) hp
  | released ht hcode hlive hdead hchange hrel =>
    exact accounted_released ht hcode hlive hdead hchange hrel hseen hp
  | @kept settings y a payload t t' _ _ _ ht hst hid hcode hfailed =>
    have hfind : s.db.transactions.find? t'.id = some t := by
      rw [hid, Table.key_of_find? ht, ht]
    exact accounted_transaction hfind hcode (by simp [TransactionStatus.Absorbing, hst])
      (by simp [useChange, hfailed]) (.inr ⟨rfl, .inl hfailed⟩) hp
  | edited hp₀ hused => exact accounted_edited hp₀ hused hp

/-- The one transaction a commit writes: one that held its use, or a new one. -/
def WrittenBy (j : Job) (d : Database) (t' : Transaction) : Prop :=
  (∃ t, d.transactions.find? t'.id = some t ∧ t'.promoCodeId = t.promoCodeId ∧
      ¬ t.status.Absorbing ∧ (useChange j t' = none ∧ ¬ t'.status.Absorbing ∨
        (useChange j t' = some .release ∨ useChange j t' = some .keep) ∧ t'.status.Absorbing)) ∨
    d.transactions.find? t'.id = none ∧ useChange j t' = some .reserve ∧
      ∀ id ∈ t'.promoCodeId, ∃ p, d.promoCodes.find? id = some p

theorem Counts.transactions (h : Counts unicode x s j ws)
    (hseen : ∀ q ∈ x.snapshots, Backed q.db) :
    (replay ws s.db).transactions = s.db.transactions ∧ ws.filterMap Write.transaction? = [] ∨
      ∃ t', (replay ws s.db).transactions = s.db.transactions.put t' ∧
        ws.filterMap Write.transaction? = [t'] ∧ WrittenBy j s.db t' := by
  cases h with
  | nothing => exact .inl ⟨rfl, rfl⟩
  | @reserved settings r discount reserve t hres hfresh hst =>
    have hcreate : useChange (.createDeposit settings r) t = some .reserve := by simp [useChange]
    generalize hcode : t.promoCodeId = code at hres
    cases hres with
    | none => exact .inr ⟨t, rfl, rfl, .inr ⟨hfresh, hcreate, by simp [hcode]⟩⟩
    | code p _ hp =>
      refine .inr ⟨t, rfl, rfl, .inr ⟨hfresh, hcreate, fun id hid => ?_⟩⟩
      rw [hcode] at hid
      cases hid
      exact ⟨p, hp⟩
  | @moved _ t t' ht hcode hlive hlive' hnone =>
    exact .inr ⟨t', rfl, rfl, .inl ⟨t, ht, hcode, hlive, .inl ⟨hnone, hlive'⟩⟩⟩
  | @released _ t t' ws ht hcode hlive hdead hchange hrel =>
    have hold : WrittenBy j s.db t' :=
      .inl ⟨t, ht, hcode, hlive, .inr ⟨.inl hchange, hdead⟩⟩
    rcases hrel.eq hseen hlive with ⟨-, rfl⟩ | ⟨p, -, -, -, rfl⟩ <;> exact .inr ⟨t', rfl, rfl, hold⟩
  | @kept settings y a payload t t' _ _ _ ht hst hid hcode hfailed =>
    have hkeep : useChange (.processTransfer settings) t' = some .keep := by
      simp [useChange, hfailed]
    refine .inr ⟨t', rfl, rfl, .inl ⟨t, ?_, hcode, by simp [TransactionStatus.Absorbing, hst],
      .inr ⟨.inr hkeep, .inl hfailed⟩⟩⟩
    rw [hid, Table.key_of_find? ht, ht]
  | edited => exact .inl ⟨rfl, rfl⟩

/-- No promo code is added. -/
theorem Counts.promoCode (h : Counts unicode x s j ws)
    (hseen : ∀ q ∈ x.snapshots, Backed q.db) {p' : PromoCode} (hp' : .promoCode p' ∈ ws) :
    ∃ p, s.db.promoCodes.find? p'.id = some p := by
  cases h with
  | nothing => cases hp'
  | reserved hres =>
    generalize Transaction.promoCodeId _ = code at hres
    cases hres with
    | none => simp at hp'
    | code p _ hp =>
      obtain rfl : p' = { p with usedCount := p.usedCount + 1 } := by simpa using hp'
      exact ⟨p, hp⟩
  | moved => simp at hp'
  | released _ _ hlive _ _ hrel =>
    rcases hrel.eq hseen hlive with ⟨-, rfl⟩ | ⟨p, -, hp, -, rfl⟩
    · simp at hp'
    · obtain rfl : p' = { p with usedCount := p.usedCount - 1 } := by simpa using hp'
      exact ⟨p, hp⟩
  | kept => simp at hp'
  | edited hp =>
    obtain rfl : p' = _ := by simpa using hp'
    exact ⟨_, hp⟩

/-- A commit leaves the uses covered. -/
theorem Counts.backed (h : Counts unicode x s j ws) (hseen : ∀ q ∈ x.snapshots, Backed q.db)
    (hs : Backed s.db) : Backed (replay ws s.db) := by
  have hstays {id : String} (hp : ∃ p, s.db.promoCodes.find? id = some p) :
      ∃ p, (replay ws s.db).promoCodes.find? id = some p := by
    obtain ⟨p, hp⟩ := hp
    obtain ⟨p', hp'⟩ := h.accounted hseen hp
    exact ⟨p', hp'.found⟩
  refine ⟨fun t ht id hid => hstays ?_, fun id p' hp' => ?_⟩
  · rcases h.transactions hseen with ⟨hsame, -⟩ | ⟨t', hput, -, hwritten⟩
    · rw [hsame] at ht
      exact hs.stored t ht id hid
    · rw [hput] at ht
      rcases Table.mem_put.mp ht with rfl | ⟨ht, -⟩
      · rcases hwritten with ⟨t₀, ht₀, hcode, -⟩ | ⟨-, -, hknown⟩
        · exact hs.stored t₀ (Table.mem_of_find? ht₀) id (hcode ▸ hid)
        · exact hknown id hid
      · exact hs.stored t ht id hid
  · obtain ⟨p, hp⟩ : ∃ p, s.db.promoCodes.find? id = some p := by
      rcases Database.promoCode_replay hp' with ⟨hw, rfl⟩ | hold
      · exact h.promoCode hseen hw
      · exact hold
    obtain ⟨p₁, hp₁⟩ := h.accounted hseen hp
    obtain rfl := Option.some.inj (hp'.symm.trans hp₁.found)
    have hcovered := hs.used id p hp
    have hused := hp₁.used
    have hholders := hp₁.holders
    omega

end Commit

end MoneyWay
