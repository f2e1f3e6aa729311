import MoneyWay.Payments

/-!
# The file of a deposit

The rows that belong to one deposit: its transaction, its transfer and its KYC record.
A commit changes the file of at most one deposit, in one of seven ways; this is said once
here, and every invariant over the three tables follows from it.
-/

set_option autoImplicit false

namespace MoneyWay

open Keyed ReadCommitted Python Sql

structure File where
  transaction : Transaction
  transfer : Option BingxTransfer
  kyc : Option KycRecord

/-- The transaction whose file a write is to. -/
def Write.about : Write → Option String
  | .transaction t => some t.id
  | .bingxTransfer y => some y.transactionId
  | .kycRecord k => some k.transactionId
  | _ => none

namespace Database

/-- The transfer of a transaction. -/
def transferOf (d : Database) (id : String) : Option BingxTransfer :=
  d.bingxTransfers.rows.find? fun y => y.transactionId = id

def file (d : Database) (id : String) : Option File :=
  (d.transactions.find? id).map fun t => ⟨t, d.transferOf id, d.kycRecords.find? id⟩

variable {d d' : Database} {id : String}

theorem transferOf_eq_none : d.transferOf id = none ↔
    ∀ y ∈ d.bingxTransfers.rows, y.transactionId ≠ id := by
  simp [transferOf]

theorem transferOf_eq_some (hd : Sound d) {y : BingxTransfer} :
    d.transferOf id = some y ↔ y ∈ d.bingxTransfers.rows ∧ y.transactionId = id := by
  constructor
  · intro h
    exact ⟨List.mem_of_find?_eq_some h, by simpa using List.find?_some h⟩
  · rintro ⟨hy, rfl⟩
    cases hf : d.transferOf y.transactionId with
    | none => exact absurd rfl (transferOf_eq_none.mp hf y hy)
    | some z =>
      have hz := List.mem_of_find?_eq_some hf
      have he : z.transactionId = y.transactionId := by simpa using List.find?_some hf
      rw [hd.single z hz y hy he]

theorem file_eq_none : d.file id = none ↔ d.transactions.find? id = none := by
  simp [file]

theorem file_of_find? {t : Transaction} (ht : d.transactions.find? id = some t) :
    d.file id = some ⟨t, d.transferOf id, d.kycRecords.find? id⟩ := by
  rw [file, ht, Option.map_some]

theorem find?_of_file {f : File} (h : d.file id = some f) :
    d.transactions.find? id = some f.transaction ∧ d.transferOf id = f.transfer ∧
      d.kycRecords.find? id = f.kyc := by
  obtain ⟨t, ht, rfl⟩ := Option.map_eq_some_iff.mp h
  exact ⟨ht, rfl, rfl⟩

/-- A pending transaction has nothing else in its file. -/
theorem file_of_pending (hd : Sound d) {t : Transaction}
    (ht : d.transactions.find? id = some t) (hp : t.status = .pending) :
    d.file id = some ⟨t, none, none⟩ := by
  obtain ⟨hkyc, hbare⟩ := hd.bare ht hp
  rw [file_of_find? ht, transferOf_eq_none.mpr hbare, hkyc]

/-- A transfer is in the file of its transaction. -/
theorem file_of_transfer (hd : Sound d) {y : BingxTransfer} (hy : y ∈ d.bingxTransfers.rows) :
    ∃ t, d.transactions.find? y.transactionId = some t ∧ t.status ≠ .pending ∧
      d.file y.transactionId = some ⟨t, some y, d.kycRecords.find? y.transactionId⟩ := by
  obtain ⟨t, ht, hne, -⟩ := hd.owner y hy
  exact ⟨t, ht, hne, by rw [file_of_find? ht, (transferOf_eq_some hd).mpr ⟨hy, rfl⟩]⟩

/-- There is no transfer or KYC record without its transaction. -/
theorem bare_of_fresh (hd : Sound d) (ht : d.transactions.find? id = none) :
    d.transferOf id = none ∧ d.kycRecords.find? id = none := by
  constructor
  · rw [transferOf_eq_none]
    intro y hy he
    obtain ⟨t, hf, -⟩ := hd.owner y hy
    rw [he, ht] at hf
    cases hf
  · rw [Table.find?_eq_none]
    intro k hk he
    obtain ⟨t, hf, -⟩ := hd.kyc k hk
    rw [he, ht] at hf
    cases hf

theorem file_eq {t : Transaction} {m : Option BingxTransfer} {k : Option KycRecord}
    (ht : d.transactions.find? id = some t) (hm : d.transferOf id = m)
    (hk : d.kycRecords.find? id = k) : d.file id = some ⟨t, m, k⟩ := by
  rw [file_of_find? ht, hm, hk]

/-- Promo codes, the blacklist and the logs are in nobody's file. -/
theorem file_replay_bound (ws : List Write) :
    (replay ws d).file id = (replay (ws.filter Write.bound) d).file id := by
  have hkey : ∀ d' : Database, d'.transactions = d.transactions →
      d'.kycRecords = d.kycRecords → d'.bingxTransfers = d.bingxTransfers →
      (replay ws d').file id = (replay (ws.filter Write.bound) d).file id := by
    induction ws generalizing d with
    | nil =>
      intro d' ht hk hb
      simp only [List.filter_nil, replay_nil, file, transferOf, ht, hk, hb]
    | cons w ws ih =>
      intro d' ht hk hb
      cases w with
      | transaction t => exact ih _ (by simp [ht]) hk hb
      | bingxTransfer y => exact ih _ ht hk (by simp [hb])
      | kycRecord k => exact ih _ ht (by simp [hk]) hb
      | _ => exact ih _ ht hk hb
  exact hkey d rfl rfl rfl

/-- Writes to other files leave a file alone. -/
theorem file_untouched {ws : List Write} (hd : Sound d) (hl : Lawful d ws)
    (hother : ∀ w ∈ ws, w.about ≠ some id) : (replay ws d).file id = d.file id := by
  have htx : (replay ws d).transactions.find? id = d.transactions.find? id := by
    refine row_transaction (row_untouched fun w hw ht => ?_)
    cases w with
    | transaction t => exact hother _ hw (by simpa [Write.about] using ht)
    | _ => simp at ht
  have hkyc : (replay ws d).kycRecords.find? id = d.kycRecords.find? id := by
    refine row_kycRecord (row_untouched fun w hw ht => ?_)
    cases w with
    | kycRecord k => exact hother _ hw (by simpa [Write.about] using ht)
    | _ => simp at ht
  have htr : (replay ws d).transferOf id = d.transferOf id := by
    cases hf : d.transferOf id with
    | none =>
      rw [transferOf_eq_none] at hf ⊢
      intro y hy he
      rcases transfer_replay (Table.find?_of_mem hy) with ⟨hw, -⟩ | ⟨hold, -⟩
      · exact hother _ hw (congrArg some he)
      · exact hf y (Table.mem_of_find? hold) he
    | some y =>
      obtain ⟨hy, he⟩ := (transferOf_eq_some hd).mp hf
      refine (transferOf_eq_some (hl.sound hd)).mpr ⟨?_, he⟩
      have hrow : (replay ws d).bingxTransfers.find? y.id = d.bingxTransfers.find? y.id := by
        refine row_bingxTransfer (row_untouched fun w hw ht => ?_)
        cases w with
        | bingxTransfer z =>
          -- a write to its row would be for the same transaction
          have hid : z.id = y.id := by simpa using ht
          rcases hl.transfer z hw with ⟨z₀, hz₀, hsame⟩ | ⟨hnone, -⟩
          · rw [hid, Table.find?_of_mem hy] at hz₀
            cases hz₀
            exact hother _ hw (congrArg some (hsame.transactionId.trans he))
          · rw [hid, Table.find?_of_mem hy] at hnone
            cases hnone
        | _ => simp at ht
      exact Table.mem_of_find? (hrow.trans (Table.find?_of_mem hy))
  simp only [file, htx, hkyc, htr]

end Database

/-- What the update that goes with a settled transfer has done to its transaction. -/
inductive Updated (x : Txn signature) (y : BingxTransfer) (t : Transaction) :
    Option (Transaction → Transaction) → Transaction → Prop
  | none : Updated x y t none t
  | paid {set : Transaction → Transaction} : t.status = .paid → Updated x y t (some set) (set t)
  | skipped {set : Transaction → Transaction} {q : Shared signature} {t₀ : Transaction} :
      q ∈ x.snapshots → q.db.bingxTransfers.find? y.id = some y →
      q.db.transactions.find? y.transactionId = some t₀ → t₀.status ≠ .paid →
      Updated x y t (some set) t

/-- What a commit does to the file of transaction `id`. -/
inductive FileStep (unicode : Unicode) (x : Txn signature) (s : Shared signature) (id : String) :
    Job → Result → Option File → Option File → Prop
  | kept {j : Job} {v : Result} {f : Option File} :
      (∀ c ∈ x.calls, c.1.idempotencyKey ≠ idempotencyKey id) → FileStep unicode x s id j v f f
  | created {settings : Settings} {r : DepositCreateRequest} {promoCodeId : Option String}
      {discount commission amountUsdt : Decimal} {now : Timestamp} {t : Transaction} :
      calculateDepositAmounts r.amountRub settings discount = .ok (commission, amountUsdt) →
      StoredAs (newTransaction r id promoCodeId commission amountUsdt now) t → x.calls = [] →
      FileStep unicode x s id (.createDeposit settings r)
        (.deposit ⟨id, .pending, r.amountRub, amountUsdt, commission, none⟩)
        none (some ⟨t, none, none⟩)
  | rejected {p : SBPPaymentWebhook} {holdMinutes : ℤ} {v : Result} {t : Transaction}
      {now : Timestamp} :
      p.transactionId = id → p.status = .failed → t.status = .pending →
      fits [(128, p.sbpPaymentId)] = true → x.calls = [] →
      FileStep unicode x s id (.sbpPaymentWebhook p holdMinutes) v
        (some ⟨t, none, none⟩) (some ⟨t.reject p.sbpPaymentId now, none, none⟩)
  | paid {p : SBPPaymentWebhook} {holdMinutes : ℤ} {v : Result} {t : Transaction}
      {amountRub : Decimal} {payerName payerPhone transferId : String}
      {now now₁ now₂ : Timestamp} :
      p.transactionId = id → p.status = .paid → t.status = .pending →
      p.amountRub = some amountRub → amountRub.SameValue t.amountRub.toDecimal →
      fits [(128, p.sbpPaymentId)] = true →
      fits [(255, some payerName), (64, some payerPhone)] = true →
      (∃ q ∈ x.snapshots, q.ext.now ≤ now₂) → now₂ ≤ s.ext.now → x.calls = [] →
      FileStep unicode x s id (.sbpPaymentWebhook p holdMinutes) v (some ⟨t, none, none⟩)
        (some ⟨t.pay p.sbpPaymentId now, some (newTransfer t holdMinutes transferId now₂),
          some (kycRecord p payerName payerPhone t.amountRub now₁)⟩)
  | cancelled {p : SBPChargebackWebhook} {v : Result} {t : Transaction} {y : BingxTransfer}
      {k : Option KycRecord} {now : Timestamp} {q : Shared signature} :
      p.transactionId = id → t.status ∈ chargebackEligibleStatuses →
      x.snapshots[2]? = some q →
      q.db.file id = some ⟨t, some y, q.db.kycRecords.find? id⟩ →
      (y.status = .pending ∨ y.status = .processing) → x.calls = [] →
      FileStep unicode x s id (.sbpChargebackWebhook p) v (some ⟨t, some y, k⟩)
        (some ⟨t.dispute now, some (y.cancel now), k⟩)
  | disputed {p : SBPChargebackWebhook} {v : Result} {t : Transaction}
      {m m' : Option BingxTransfer} {k : Option KycRecord} {now : Timestamp}
      {q : Shared signature} :
      p.transactionId = id → t.status ∈ chargebackEligibleStatuses →
      x.snapshots[2]? = some q →
      q.db.file id = some ⟨t, m', q.db.kycRecords.find? id⟩ →
      (∀ y ∈ m', y.status ≠ .pending ∧ y.status ≠ .processing) → x.calls = [] →
      FileStep unicode x s id (.sbpChargebackWebhook p) v (some ⟨t, m, k⟩)
        (some ⟨t.dispute now, m, k⟩)
  | recorded {settings : WorkerSettings} {y y' : BingxTransfer} {now : Timestamp} {a : Answer}
      {set : Option (Transaction → Transaction)} {t t' : Transaction} {k : Option KycRecord} :
      y.transactionId = id → Claimed x s settings y now → x.calls = [(y.request, a)] →
      Settled y now (answerRoute unicode a) y' set → Updated x y t set t' →
      FileStep unicode x s id (.processTransfer settings) (.processed true)
        (some ⟨t, some y, k⟩) (some ⟨t', some y', k⟩)
  | reset {y : BingxTransfer} {v : Result} {t : Transaction} {k : Option KycRecord} :
      y.transactionId = id → y.status = .onHold → x.calls = [] →
      FileStep unicode x s id (.resetOnHold y.id) v (some ⟨t, some y, k⟩)
        (some ⟨t, some y.release, k⟩)

section Commit

variable {unicode : Unicode} {x : Txn signature} {s : Shared signature} {id : String}

/-- A file a commit has not written to is kept. -/
theorem FileStep.of_untouched {j : Job} {v : Result} {ws : List Write} (hs : Inv s)
    (hcalls : ∀ c ∈ x.calls, c.1.idempotencyKey ≠ idempotencyKey id)
    (hl : Lawful s.db ws) (hother : ∀ w ∈ ws, w.about ≠ some id) :
    FileStep unicode x s id j v (s.db.file id) ((replay ws s.db).file id) := by
  rw [Database.file_untouched hs.sound hl hother]
  exact .kept hcalls

theorem fileStep_created {settings : Settings} {r : DepositCreateRequest}
    {promoCodeId : Option String} {discount commission amountUsdt : Decimal} {tid : String}
    {now : Timestamp} {t : Transaction} (hs : Inv s)
    (hquote : calculateDepositAmounts r.amountRub settings discount = .ok (commission, amountUsdt))
    (hstored : StoredAs (newTransaction r tid promoCodeId commission amountUsdt now) t)
    (hfresh : s.db.transactions.find? t.id = none) (hcalls : x.calls = [])
    (hl : Lawful s.db [.transaction t]) :
    FileStep unicode x s id (.createDeposit settings r)
      (.deposit ⟨tid, .pending, r.amountRub, amountUsdt, commission, none⟩)
      (s.db.file id) ((replay [.transaction t] s.db).file id) := by
  have hid : t.id = tid := hstored.id
  by_cases hi : t.id = id
  · obtain rfl : tid = id := hid.symm.trans hi
    rw [hid] at hfresh
    obtain ⟨htr, hkyc⟩ := Database.bare_of_fresh hs.sound hfresh
    have hafter : (replay [.transaction t] s.db).file tid = some ⟨t, none, none⟩ :=
      Database.file_eq (by simp [← hid]) htr hkyc
    rw [Database.file_eq_none.mpr hfresh, hafter]
    exact .created hquote hstored hcalls
  · exact .of_untouched hs (by simp [hcalls]) hl (by simpa [Write.about] using hi)

theorem fileStep_rejected {p : SBPPaymentWebhook} {holdMinutes : ℤ} {v : Result}
    {t : Transaction} {now : Timestamp} (hs : Inv s) (hp : p.status = .failed)
    (ht : s.db.transactions.find? p.transactionId = some t) (hst : t.status = .pending)
    (hfits : fits [(128, p.sbpPaymentId)] = true) (hcalls : x.calls = [])
    (hl : Lawful s.db [.transaction (t.reject p.sbpPaymentId now)]) :
    FileStep unicode x s id (.sbpPaymentWebhook p holdMinutes) v (s.db.file id)
      ((replay [.transaction (t.reject p.sbpPaymentId now)] s.db).file id) := by
  have hid : t.id = p.transactionId := Table.key_of_find? ht
  by_cases hi : p.transactionId = id
  · subst hi
    have hbefore := Database.file_of_pending hs.sound ht hst
    obtain ⟨-, htr, hkyc⟩ := Database.find?_of_file hbefore
    have hafter : (replay [.transaction (t.reject p.sbpPaymentId now)] s.db).file p.transactionId =
        some ⟨t.reject p.sbpPaymentId now, none, none⟩ :=
      Database.file_eq (by simp [← hid, Transaction.reject]) htr hkyc
    rw [hbefore, hafter]
    exact .rejected rfl hp hst hfits hcalls
  · exact .of_untouched hs (by simp [hcalls]) hl
      (by simpa [Write.about, Transaction.reject, hid] using hi)

theorem fileStep_paid {p : SBPPaymentWebhook} {holdMinutes : ℤ} {v : Result}
    {t : Transaction} {amountRub : Decimal} {payerName payerPhone transferId : String}
    {now now₁ now₂ : Timestamp} (hs : Inv s) (hp : p.status = .paid)
    (ht : s.db.transactions.find? p.transactionId = some t) (hst : t.status = .pending)
    (ha : p.amountRub = some amountRub) (hsame : amountRub.SameValue t.amountRub.toDecimal)
    (hfits : fits [(128, p.sbpPaymentId)] = true)
    (hpayer : fits [(255, some payerName), (64, some payerPhone)] = true)
    (hread : ∃ q ∈ x.snapshots, q.ext.now ≤ now₂) (hclock : now₂ ≤ s.ext.now)
    (hcalls : x.calls = []) (hl : Lawful s.db [.transaction (t.pay p.sbpPaymentId now),
      .kycRecord (kycRecord p payerName payerPhone t.amountRub now₁),
      .bingxTransfer (newTransfer t holdMinutes transferId now₂)]) :
    FileStep unicode x s id (.sbpPaymentWebhook p holdMinutes) v (s.db.file id)
      ((replay [.transaction (t.pay p.sbpPaymentId now),
        .kycRecord (kycRecord p payerName payerPhone t.amountRub now₁),
        .bingxTransfer (newTransfer t holdMinutes transferId now₂)] s.db).file id) := by
  have hid : t.id = p.transactionId := Table.key_of_find? ht
  by_cases hi : p.transactionId = id
  · subst hi
    have htx := Table.find?_put_self s.db.transactions (t.pay p.sbpPaymentId now)
    have hkyc := Table.find?_put_self s.db.kycRecords
      (kycRecord p payerName payerPhone t.amountRub now₁)
    have hnew : newTransfer t holdMinutes transferId now₂ ∈
        (s.db.bingxTransfers.put (newTransfer t holdMinutes transferId now₂)).rows :=
      Table.mem_put.mpr (.inl rfl)
    have htr := (Database.transferOf_eq_some (hl.sound hs.sound)).mpr ⟨hnew, hid⟩
    have hpaid : (t.pay p.sbpPaymentId now).id = p.transactionId := hid
    rw [hpaid] at htx
    have hafter := Database.file_eq htx htr hkyc
    rw [Database.file_of_pending hs.sound ht hst, hafter]
    exact .paid rfl hp hst ha hsame hfits hpayer hread hclock hcalls
  · exact .of_untouched hs (by simp [hcalls]) hl
      (by simpa [Write.about, Transaction.pay, newTransfer, kycRecord, hid] using hi)

theorem about_cancelWrites {d : Database} {w : Write} {now : Timestamp}
    (h : w ∈ cancelWrites d id now) : w.about = some id := by
  obtain ⟨y, hy, rfl⟩ := List.mem_map.mp h
  exact congrArg some (mem_unsent.mp hy).2.1

theorem replay_cancelWrites (d : Database) (id : String) (now : Timestamp) (d' : Database) :
    (replay (cancelWrites d id now) d').transactions = d'.transactions ∧
      (replay (cancelWrites d id now) d').kycRecords = d'.kycRecords := by
  constructor
  · exact Database.transactions_replay (by simp [cancelWrites])
  · exact Database.kycRecords_replay (by simp [cancelWrites])

/-- The cancelled row of an unsent transfer is what is left of it. -/
theorem transferOf_cancelled {d q : Database} {t' : Transaction} {y : BingxTransfer}
    {now : Timestamp} (hd : Sound d)
    (hl : Lawful d (.transaction t' :: cancelWrites q id now)) (hy : y ∈ unsent q id)
    (hrow : d.bingxTransfers.find? y.id = some y) :
    (replay (.transaction t' :: cancelWrites q id now) d).transferOf id = some (y.cancel now) := by
  obtain ⟨hmem, htid, -⟩ := mem_unsent.mp hy
  refine (Database.transferOf_eq_some (hl.sound hd)).mpr ⟨?_, htid⟩
  have hcancel : .bingxTransfer (y.cancel now) ∈ .transaction t' :: cancelWrites q id now :=
    List.mem_cons_of_mem _ (List.mem_map_of_mem hy)
  obtain ⟨y', hy'⟩ := Database.exists_transfer_replay
    (.transaction t' :: cancelWrites q id now) hrow
  rcases Database.transfer_replay hy' with ⟨hw, hid⟩ | ⟨-, hnone⟩
  · obtain ⟨z, hz, rfl⟩ : ∃ z ∈ unsent q id, z.cancel now = y' := by
      simpa [cancelWrites] using hw
    obtain rfl := Table.eq_of_key (mem_unsent.mp hz).1 hmem hid
    exact Table.mem_of_find? hy'
  · exact absurd rfl (hnone (y.cancel now) hcancel)

theorem fileStep_disputed {p : SBPChargebackWebhook} {v : Result} {t : Transaction}
    {now : Timestamp} {q : Shared signature} (hs : Inv s) (hsq : Inv q)
    (ht : s.db.transactions.find? p.transactionId = some t)
    (hst : t.status ∈ chargebackEligibleStatuses) (hq : x.snapshots[2]? = some q)
    (hrow : q.db.transactions.find? p.transactionId = some t)
    (hcancel : ∀ y ∈ unsent q.db p.transactionId, s.db.bingxTransfers.find? y.id = some y)
    (hcalls : x.calls = []) (hl : Lawful s.db
      (.transaction (t.dispute now) :: cancelWrites q.db p.transactionId now)) :
    FileStep unicode x s id (.sbpChargebackWebhook p) v (s.db.file id)
      ((replay (.transaction (t.dispute now) :: cancelWrites q.db p.transactionId now)
        s.db).file id) := by
  have hid : t.id = p.transactionId := Table.key_of_find? ht
  by_cases hi : p.transactionId = id
  · subst hi
    have hread := Database.file_of_find? hrow
    have htx := Table.find?_put_self s.db.transactions (t.dispute now)
    have hdispute : (t.dispute now).id = p.transactionId := hid
    rw [hdispute] at htx
    have hbefore := Database.file_of_find? ht
    obtain ⟨htxs, hkycs⟩ := replay_cancelWrites q.db p.transactionId now
      (s.db.apply (.transaction (t.dispute now)))
    have hafter : (replay (.transaction (t.dispute now) :: cancelWrites q.db p.transactionId now)
        s.db).file p.transactionId = some ⟨t.dispute now,
          (replay (.transaction (t.dispute now) :: cancelWrites q.db p.transactionId now)
            s.db).transferOf p.transactionId, s.db.kycRecords.find? p.transactionId⟩ :=
      Database.file_eq (by rw [replay_cons, store_apply, htxs]; exact htx) rfl
        (by rw [replay_cons, store_apply, hkycs]; rfl)
    by_cases hun : ∃ y, y ∈ unsent q.db p.transactionId
    · obtain ⟨y, hy⟩ := hun
      obtain ⟨hmem, htid, hstatus⟩ := mem_unsent.mp hy
      have hown : s.db.transferOf p.transactionId = some y :=
        (Database.transferOf_eq_some hs.sound).mpr ⟨Table.mem_of_find? (hcancel y hy), htid⟩
      rw [(Database.transferOf_eq_some hsq.sound).mpr ⟨hmem, htid⟩] at hread
      rw [hbefore, hafter, hown, transferOf_cancelled hs.sound hl hy (hcancel y hy)]
      exact .cancelled rfl hst hq hread hstatus hcalls
    · have hnil : cancelWrites q.db p.transactionId now = [] := by
        rw [cancelWrites, List.map_eq_nil_iff, List.eq_nil_iff_forall_not_mem]
        exact fun y hy => hun ⟨y, hy⟩
      rw [hbefore, hafter, hnil]
      refine .disputed rfl hst hq hread (fun y hy => ?_) hcalls
      obtain ⟨hmem, htid⟩ := (Database.transferOf_eq_some hsq.sound).mp hy
      rw [← not_or]
      exact fun hstatus => hun ⟨y, mem_unsent.mpr ⟨hmem, htid, hstatus⟩⟩
  · refine .of_untouched hs (by simp [hcalls]) hl fun w hw ha => hi ?_
    rcases List.mem_cons.mp hw with rfl | hw
    · exact hid.symm.trans (Option.some.inj ha)
    · exact Option.some.inj ((about_cancelWrites hw).symm.trans ha)

/-- What goes with a settled transfer: the transaction's row afterwards. -/
theorem updated_of_updates {y : BingxTransfer} {set : Option (Transaction → Transaction)}
    {ws : List Write} {t : Transaction} (h : Updates x s y ws set)
    (ht : s.db.transactions.find? y.transactionId = some t) :
    ∃ t', Updated x y t set t' ∧ (ws = [] ∧ t' = t ∨ ws = [.transaction t'] ∧
      ∃ set', set = some set' ∧ t' = set' t ∧ t.status = .paid) := by
  cases set with
  | none => exact ⟨t, .none, .inl ⟨h, rfl⟩⟩
  | some set =>
    obtain ⟨q, hq, hy, t₀, ht₀, ⟨hst, ht', rfl⟩ | ⟨hst, rfl⟩⟩ := h
    · rw [ht] at ht'
      cases ht'
      exact ⟨set t, .paid hst, .inr ⟨rfl, set, rfl, rfl, hst⟩⟩
    · exact ⟨t, .skipped hq hy ht₀ hst, .inl ⟨rfl, rfl⟩⟩

theorem fileStep_recorded {settings : WorkerSettings} {y y' : BingxTransfer} {now : Timestamp}
    {a : Answer} {set : Option (Transaction → Transaction)} {ws : List Write} (hs : Inv s)
    (hclaimed : Claimed x s settings y now) (hcalls : x.calls = [(y.request, a)])
    (hset : Settled y now (answerRoute unicode a) y' set) (hws : Updates x s y ws set)
    (hl : Lawful s.db (.bingxTransfer (claim now y) :: .bingxTransfer y' :: ws)) :
    FileStep unicode x s id (.processTransfer settings) (.processed true) (s.db.file id)
      ((replay (.bingxTransfer (claim now y) :: .bingxTransfer y' :: ws) s.db).file id) := by
  have hy := Table.mem_of_find? hclaimed.row
  obtain ⟨t, ht, -, hbefore⟩ := Database.file_of_transfer hs.sound hy
  obtain ⟨t', hupdated, hcases⟩ := updated_of_updates hws ht
  have htid' : y'.transactionId = y.transactionId := hset.samePayout.transactionId
  have hid' : t'.id = y.transactionId := by
    rcases hcases with ⟨-, rfl⟩ | ⟨-, set', rfl, rfl, hst⟩
    · exact Table.key_of_find? ht
    · exact (hset.moves hst).quote.id.trans (Table.key_of_find? ht)
  by_cases hi : y.transactionId = id
  · subst hi
    have hrow : (replay (.bingxTransfer (claim now y) :: .bingxTransfer y' :: ws)
        s.db).row (.bingxTransfer y'.id) = some (.bingxTransfer y') := by
      change (replay ([.bingxTransfer (claim now y)] ++ .bingxTransfer y' :: ws) s.db).row _ = _
      refine Database.row_written_last rfl rfl fun w hw => ?_
      rcases hcases with ⟨rfl, -⟩ | ⟨rfl, -⟩
      · cases hw
      · cases List.mem_singleton.mp hw
        simp
    have htr := (Database.transferOf_eq_some (hl.sound hs.sound)).mpr
      ⟨Table.mem_of_find? (Option.map_injective (fun _ _ => Write.bingxTransfer.inj) hrow), htid'⟩
    have htx : (replay (.bingxTransfer (claim now y) :: .bingxTransfer y' :: ws)
          s.db).transactions.find? y.transactionId = some t' ∧
        (replay (.bingxTransfer (claim now y) :: .bingxTransfer y' :: ws)
          s.db).kycRecords = s.db.kycRecords := by
      rcases hcases with ⟨rfl, rfl⟩ | ⟨rfl, -⟩
      · exact ⟨ht, rfl⟩
      · rw [← hid']
        exact ⟨Table.find?_put_self s.db.transactions t', rfl⟩
    rw [hbefore, Database.file_eq htx.1 htr (by rw [htx.2])]
    exact .recorded rfl hclaimed hcalls hset hupdated
  · have hother : ∀ c ∈ x.calls, c.1.idempotencyKey ≠ idempotencyKey id := by
      simp only [hcalls, List.mem_singleton, forall_eq]
      exact fun he => hi (idempotencyKey_injective ((hs.sound.idempotencyKey_eq hy).symm.trans he))
    refine .of_untouched hs hother hl fun w hw ha => hi ?_
    rcases List.mem_cons.mp hw with rfl | hw
    · exact Option.some.inj ha
    rcases List.mem_cons.mp hw with rfl | hw
    · exact htid'.symm.trans (Option.some.inj ha)
    · rcases hcases with ⟨rfl, -⟩ | ⟨rfl, -⟩
      · cases hw
      · cases List.mem_singleton.mp hw
        exact hid'.symm.trans (Option.some.inj ha)

theorem fileStep_reset {y : BingxTransfer} {v : Result} (hs : Inv s)
    (hy : s.db.bingxTransfers.find? y.id = some y) (hst : y.status = .onHold)
    (hcalls : x.calls = []) (hl : Lawful s.db [.bingxTransfer y.release]) :
    FileStep unicode x s id (.resetOnHold y.id) v (s.db.file id)
      ((replay [.bingxTransfer y.release] s.db).file id) := by
  obtain ⟨t, ht, -, hbefore⟩ := Database.file_of_transfer hs.sound (Table.mem_of_find? hy)
  by_cases hi : y.transactionId = id
  · subst hi
    have htr : (replay [.bingxTransfer y.release] s.db).transferOf y.transactionId =
        some y.release :=
      (Database.transferOf_eq_some (hl.sound hs.sound)).mpr ⟨Table.mem_put.mpr (.inl rfl), rfl⟩
    have htx : (replay [.bingxTransfer y.release] s.db).transactions.find? y.transactionId =
        some t := ht
    rw [hbefore, Database.file_eq htx htr rfl]
    exact .reset rfl hst hcalls
  · exact .of_untouched hs (by simp [hcalls]) hl
      (by simpa [Write.about, BingxTransfer.release] using hi)

/-- What a commit does to a file. -/
theorem Outcome.fileStep {j : Job} {v : Result} (hs : Inv s) (hpast : ∀ q ∈ x.snapshots, Inv q)
    (h : Outcome unicode j v x s) (id : String) :
    FileStep unicode x s id j v (s.db.file id) ((replay x.pending s.db).file id) := by
  rw [Database.file_replay_bound]
  have hc := h.committed
  have hl := hc.lawful hs
  generalize x.pending.filter Write.bound = ws at hc hl
  cases hc with
  | nothing hcalls => exact .kept (by simp [hcalls])
  | created hquote hstored hfresh _ hcalls =>
    exact fileStep_created hs hquote hstored hfresh hcalls hl
  | rejected hp ht hst hfits hcalls => exact fileStep_rejected hs hp ht hst hfits hcalls hl
  | paid hp ht hst ha hsame _ hfits hpayer hread hclock hcalls =>
    exact fileStep_paid hs hp ht hst ha hsame hfits hpayer hread hclock hcalls hl
  | disputed ht hst hq hrow hcancel hcalls =>
    exact fileStep_disputed hs (hpast _ (List.mem_of_getElem? hq)) ht hst hq hrow hcancel hcalls hl
  | recorded hclaimed hcalls hset hws => exact fileStep_recorded hs hclaimed hcalls hset hws hl
  | reset hy hst hcalls => exact fileStep_reset hs hy hst hcalls hl

end Commit

end MoneyWay
