import MoneyWay.QuoteColumns
import MoneyWay.Sequential

/-!
# The limits of a deposit

A deposit is answered, or refused with one of its own answers, as long as PostgreSQL takes its
promo code and its quote fits the columns of its transaction.

## Main definitions

- `Offered` — the discounts that a request can get
- `CodeFits` — its promo code can be looked up, and its use counted

## Main results

- `createDeposit_fits_iff` — a deposit fails on no limit exactly when these hold, or when it is
  refused before its quote
-/

set_option autoImplicit false

namespace MoneyWay

open Keyed ReadCommitted Python Prog Sql NearestEven Decimal Decimal.Context

/-! ## The rest of the request -/

theorem storableText_slice {t : String} (h : storableText t = true) (n : ℕ) :
    storableText (slice n t) = true := by
  rw [storableText, List.all_eq_true] at h ⊢
  intro c hc
  refine h c ?_
  rw [slice, String.toList_ofList] at hc
  exact List.mem_of_mem_take hc

theorem length_slice_le (n : ℕ) (t : String) : (slice n t).length ≤ n := by
  rw [slice, String.length_ofList, List.length_take]
  exact min_le_left _ _

/-- What the surroundings of a request promise: its user is there, its identifier is new, and no
text has a character that PostgreSQL refuses. -/
structure Regular (r : DepositCreateRequest) (id : String) (d : Database) : Prop where
  user : (d.users.find? r.user.id).isSome = true
  new : d.transactions.find? id = none
  id : id.length ≤ 36 ∧ storableText id = true
  ipAddress : r.ipAddress.all storableText = true
  deviceFingerprint : r.deviceFingerprint.all storableText = true
  userAgent : r.userAgent.all storableText = true
  userId : storableText r.user.id = true
  userIds : ∀ t ∈ d.transactions.rows, storableText t.userId = true
  promoCodes : ∀ p ∈ d.promoCodes.rows, storableText p.id = true

/-- The amounts fit the columns of the transaction and meet its `CHECK`. -/
structure FitsColumns (v : DepositCreateResponse) : Prop where
  amountRub : v.amountRub.Places 2 ∧ 0 < v.amountRub.value ∧ v.amountRub.value < 10 ^ 16
  amountUsdt : v.amountUsdt.Places 8 ∧ 0 < v.amountUsdt.value ∧ v.amountUsdt.value < 10 ^ 10
  commission : v.commission.Places 2 ∧ 0 ≤ v.commission.value ∧ v.commission.value < 10 ^ 16

/-- The request is answered with amounts that fit, or refused. -/
def EndsWithin : Except Error Result → Prop
  | .ok (.deposit v) => FitsColumns v
  | .ok _ => False
  | .error (.badRequest _) | .error (.conflict _) => True
  | .error _ => False

section

variable {unicode : Unicode} {r : DepositCreateRequest} {id : String} {s : Shared signature}
  {x : Txn signature} {α : Type}

theorem referenced_replay {ws : List Write} (h : ∀ t, .transaction t ∉ ws) (d : Database)
    (userId transactionId : Option String) :
    referenced (replay ws d) userId transactionId = referenced d userId transactionId := by
  unfold referenced
  rw [Database.users_replay, Database.transactions_replay h]

/-- The transaction is inserted. -/
structure HasTransaction (r : DepositCreateRequest) (id : String) (d : Database)
    (x : Txn signature) : Prop where
  referenced : referenced (replay x.pending d) (some r.user.id) (some id) = true
  userIds : ∀ t ∈ (replay x.pending d).transactions.rows, storableText t.userId = true

theorem HasTransaction.executed (h : HasTransaction r id s.db x) {β : Type}
    {eff : Effect Write Row β} (heff : ∀ t, .transaction t ∉ eff.writes) (s' : Shared signature) :
    HasTransaction r id s.db (x.executed s' eff) := by
  have hpending : (x.executed s' eff).pending = x.pending ++ eff.writes := rfl
  refine ⟨?_, ?_⟩
  · rw [hpending, replay_append, referenced_replay heff]
    exact h.referenced
  · rw [hpending, replay_append, Database.transactions_replay heff]
    exact h.userIds

theorem insertFraudAlert_ne_error {a : FraudAlert} {locked : Row → LockMode → Bool} {d : Database}
    {e : Error} (hmetadata : storableDetails a.metadata = true)
    (href : referenced d a.userId a.transactionId = true) :
    insertFraudAlert a locked d ≠ .error e := by
  rw [insertFraudAlert, hmetadata, href]
  exact nofun

theorem insertAuditLog_ne_error {a : AuditEntry} {locked : Row → LockMode → Bool} {d : Database}
    {e : Error} (hpayload : a.payload.all storableDetails = true)
    (hfits : fits [(64, a.ipAddress), (128, a.deviceFingerprint), (512, a.userAgent)] = true)
    (href : referenced d a.userId a.transactionId = true) :
    insertAuditLog a locked d ≠ .error e := by
  rw [insertAuditLog, hpayload, hfits, href]
  exact nofun

theorem after_checkDevice {Q : Except Error Unit → Txn signature → Shared signature → Prop}
    (hr : r.deviceFingerprint.all storableText = true) (hx : HasTransaction r id s.db x)
    (hQ : ∀ x' s', s'.db = s.db → x'.idents = x.idents → HasTransaction r id s.db x' →
      Q (.ok ()) x' s') :
    (checkDevice r id).After (bank unicode) Q x s := by
  unfold checkDevice
  split
  · exact fun y _ => hQ x _ rfl rfl hx
  · next fingerprint hf =>
    unfold flagDeviceReuse
    refine after_exec_bind (fun e y hq => by cases hq) fun eff y hq _ => ?_
    obtain ⟨v, hv⟩ : ∃ v, eff = { value := v, writes := [], locks := [] } :=
      ⟨_, (Except.ok.inj hq).symm⟩
    have hx₁ : HasTransaction r id s.db (x.executed ⟨s.db, y⟩ eff) :=
      hx.executed (by simp [hv]) ⟨s.db, y⟩
    split
    · exact fun z _ => hQ _ _ rfl rfl hx₁
    · next other hother =>
      refine after_now_bind fun z _ => ?_
      have hstorable : storableDetails
          (deviceReuseAlert r.user id fingerprint other z.now).metadata = true := by
        rw [← Except.ok.inj hq] at hother
        obtain ⟨t, ht, rfl⟩ := Option.map_eq_some_iff.mp hother
        have hfp : storableText fingerprint = true := by
          rw [(Option.filter_eq_some_iff.mp hf).1] at hr
          exact hr
        simp [storableDetails, deviceReuseAlert, hfp, hx.userIds t (List.mem_of_find?_eq_some ht)]
      refine after_exec (fun e y hq => ?_) fun eff' y' z' hq => ?_
      · exact absurd hq (insertFraudAlert_ne_error hstorable hx₁.referenced)
      · have heff := insertFraudAlert_ok hq
        exact hQ _ _ rfl rfl (hx₁.executed (by simp [heff]) _)

theorem fits_device {n : ℕ} (hr : r.deviceFingerprint.all storableText = true) (hn : 128 ≤ n) :
    (r.deviceFingerprint.all fun t => t.length ≤ n && storableText t) = true := by
  have hlength := r.deviceFingerprint_length
  cases hf : r.deviceFingerprint with
  | none => rfl
  | some t =>
    rw [hf] at hr hlength
    have hle : t.length ≤ 128 := hlength t rfl
    have hr : storableText t = true := hr
    simp [hr, hle.trans hn]

theorem fits_slice {o : Option String} (h : o.all storableText = true) (n : ℕ) :
    (((o.filter (· ≠ "")).map (slice n)).all fun t => t.length ≤ n && storableText t) = true := by
  cases o with
  | none => rfl
  | some t =>
    have h : storableText t = true := h
    rw [Option.filter_some]
    split
    · have hslice : ((slice n t).length ≤ n && storableText (slice n t)) = true := by
        simp [length_slice_le, storableText_slice h]
      exact hslice
    · rfl

theorem after_depositCreated {promoCodeId : Option String}
    {Q : Except Error Unit → Txn signature → Shared signature → Prop}
    (hr : r.deviceFingerprint.all storableText = true) (hip : r.ipAddress.all storableText = true)
    (hua : r.userAgent.all storableText = true) (hp : promoCodeId.all storableText = true)
    (hx : HasTransaction r id s.db x)
    (hQ : ∀ x' s', s'.db = s.db → x'.idents = x.idents → Q (.ok ()) x' s') :
    (writeAuditLog .depositCreated (some r.user.id) (some id) (depositDetails r promoCodeId)
      (storedIp r) r.deviceFingerprint r.userAgent).After (bank unicode) Q x s := by
  refine after_now_bind fun y _ => after_exec (fun e z hq => ?_) fun eff y' z' hq => hQ _ _ rfl rfl
  have hdetails : storableDetails (depositDetails r promoCodeId) = true := by
    have huid : storableText r.bingxUid = true := storableText_of_digits r.bingxUid_digits
    show (true && (storableText r.bingxUid && (true &&
      ((Detail.ofText? promoCodeId).storable && true)))) = true
    simp [huid, hp]
  have hfits : fits [(64, storedIp r), (128, r.deviceFingerprint),
      (512, (r.userAgent.filter (· ≠ "")).map (slice 512))] = true := by
    simp only [fits, List.all_cons, List.all_nil, Bool.and_true, Bool.and_eq_true]
    exact ⟨fits_slice hip 64, fits_device hr (le_refl _), fits_slice hua 512⟩
  exact absurd hq (insertAuditLog_ne_error hdetails hfits hx.referenced)

/-- The amount of a request in kopecks. -/
theorem DepositCreateRequest.exists_kopecks (r : DepositCreateRequest) :
    ∃ k : ℤ, 0 < k ∧ k ≤ 10 ^ 10 ∧ r.amountRub.value = k * 10 ^ (-2 : ℤ) := by
  obtain ⟨k, hk, hk', hsame⟩ := r.amountRub_kopecks
  refine ⟨k, by omega, by omega, ?_⟩
  rw [sameValue_iff_value.mp hsame, value_ofUnits]

/-- The amounts of a quote that can be stored. -/
structure Storable (commission amountUsdt : Decimal) : Prop where
  commission_places : commission.Places 2
  commission : 0 ≤ commission.value ∧ commission.value ≤ 10 ^ 8
  amountUsdt_places : amountUsdt.Places 8
  amountUsdt : 0 < amountUsdt.value ∧ amountUsdt.value < 10 ^ 10

variable {commission amountUsdt : Decimal} {promoCodeId : Option String} {now : Timestamp}

theorem toNumeric_amountRub (r : DepositCreateRequest) :
    ∃ n, toNumeric 18 2 r.amountRub = some n ∧ 0 < n := by
  obtain ⟨k, hk, hk', hvalue⟩ := r.exists_kopecks
  refine ⟨k, ?_, hk⟩
  rw [toNumeric_eq (s := 2) hvalue hk.le, if_pos (by omega)]

theorem Storable.toNumeric (h : Storable commission amountUsdt) :
    (∃ n, toNumeric 18 2 commission = some n ∧ 0 ≤ n) ∧
      ∃ n, toNumeric 18 8 amountUsdt = some n ∧ 0 < n := by
  obtain ⟨c, hc⟩ := h.commission_places
  obtain ⟨u, hu⟩ := h.amountUsdt_places
  obtain ⟨hc0, hc1⟩ := h.commission
  obtain ⟨hu0, hu1⟩ := h.amountUsdt
  have hpow2 : (10 : ℚ) ^ (-(2 : ℕ) : ℤ) = 1 / 10 ^ 2 := by norm_num
  have hpow8 : (10 : ℚ) ^ (-(8 : ℕ) : ℤ) = 1 / 10 ^ 8 := by norm_num
  have hcn : 0 ≤ c ∧ c < 10 ^ 18 := by
    rw [hc, hpow2] at hc0 hc1
    have h0 : (0 : ℚ) ≤ c := by linarith
    have h1 : (c : ℚ) < 10 ^ 18 := by linarith
    exact ⟨by exact_mod_cast h0, by exact_mod_cast h1⟩
  have hun : 0 < u ∧ u < 10 ^ 18 := by
    rw [hu, hpow8] at hu0 hu1
    have h0 : (0 : ℚ) < u := by linarith
    have h1 : (u : ℚ) < 10 ^ 18 := by linarith
    exact ⟨by exact_mod_cast h0, by exact_mod_cast h1⟩
  refine ⟨⟨c, ?_, hcn.1⟩, u, ?_, hun.1⟩
  · rw [toNumeric_eq hc hcn.1, if_pos hcn.2]
  · rw [toNumeric_eq hu hun.1.le, if_pos hun.2]

/-- The insert of amounts that can be stored. -/
theorem insertTransaction_regular {d : Database} {locked : Row → LockMode → Bool}
    (hreg : Regular r id d)
    (hpromo : promoCodeId.all (fun p => (d.promoCodes.find? p).isSome) = true)
    (h : Storable commission amountUsdt) :
    ∃ eff, insertTransaction (newTransaction r id promoCodeId commission amountUsdt now) locked d =
      .ok eff := by
  obtain ⟨n, hn, hn0⟩ := toNumeric_amountRub r
  obtain ⟨⟨c, hc, hc0⟩, u, hu, hu0⟩ := h.toNumeric
  have hfits : fits [(36, some id), (64, storedIp r), (128, r.deviceFingerprint)] = true := by
    simp only [fits, List.all_cons, List.all_nil, Bool.and_true, Bool.and_eq_true]
    refine ⟨?_, fits_slice hreg.ipAddress 64, fits_device hreg.deviceFingerprint (le_refl _)⟩
    simp [hreg.id.1, hreg.id.2]
  have huser := hreg.user
  simp [insertTransaction, newTransaction, hn, hc, hu, hfits, r.bingxUid_length.2, hn0, hc0, hu0,
    hreg.new, huser, hpromo]

/-- What the reservation of a promo code writes keeps the promises. -/
theorem Regular.reserved {d : Database} (h : Regular r id d) {p : PromoCode}
    (hp : p ∈ d.promoCodes.rows) :
    Regular r id (replay [.promoCode { p with usedCount := p.usedCount + 1 }] d) := by
  refine { h with user := ?_, new := ?_, userIds := ?_, promoCodes := fun q hq => ?_ }
  · exact h.user
  · exact h.new
  · exact h.userIds
  · rcases Table.mem_put.mp hq with rfl | ⟨hq, -⟩
    · exact h.promoCodes p hp
    · exact h.promoCodes q hq

theorem after_recordDeposit {Q : Except Error DepositCreateResponse → Txn signature →
      Shared signature → Prop} (hreg : Regular r id (replay x.pending s.db))
    (hpromo : promoCodeId.all
      (fun p => ((replay x.pending s.db).promoCodes.find? p).isSome) = true)
    (hpromo' : promoCodeId.all storableText = true) (h : Storable commission amountUsdt)
    (hQ : ∀ v x' s', FitsColumns v → Q (.ok v) x' s') :
    (recordDeposit r id promoCodeId commission amountUsdt now).After (bank unicode) Q x s := by
  obtain ⟨eff₀, hok⟩ : ∃ eff, insertTransaction
      (newTransaction r id promoCodeId commission amountUsdt now) (fun _ _ => false)
      (replay x.pending s.db) = .ok eff := insertTransaction_regular hreg hpromo h
  refine after_exec_bind (fun e y hq => ?_) fun eff y hq _ => ?_
  · rw [hok] at hq
    cases hq
  obtain ⟨t, hstored, -, -, heff⟩ := insertTransaction_ok hq
  have hx : HasTransaction r id s.db (x.executed ⟨s.db, y⟩ eff) := by
    have hpending : (x.executed ⟨s.db, y⟩ eff).pending = x.pending ++ [.transaction t] := by
      simp [Txn.executed, heff]
    have hid : t.id = id := hstored.id
    have huserId : t.userId = r.user.id := hstored.userId
    refine ⟨?_, fun t' ht' => ?_⟩
    · have hfind : ((replay x.pending s.db).transactions.put t).find? id = some t := by
        rw [← hid]
        exact Table.find?_put_self _ t
      have huser := hreg.user
      rw [hpending, replay_append]
      show (((replay x.pending s.db).users.find? r.user.id).isSome &&
        (((replay x.pending s.db).transactions.put t).find? id).isSome) = true
      rw [hfind, huser]
      rfl
    · rw [hpending, replay_append] at ht'
      rcases Table.mem_put.mp ht' with rfl | ⟨ht', -⟩
      · rw [huserId]
        exact hreg.userId
      · exact hreg.userIds t' ht'
  refine (after_bind (S := bank unicode)).mpr
    (after_checkDevice hreg.deviceFingerprint hx fun x' s' hdb _ hx' => ?_)
  refine (after_bind (S := bank unicode)).mpr
    (after_depositCreated hreg.deviceFingerprint hreg.ipAddress hreg.userAgent hpromo' (hdb ▸ hx')
      fun x'' s'' _ _ => ?_)
  obtain ⟨k, hk, hk', hvalue⟩ := r.exists_kopecks
  have hkQ : (0 : ℚ) < k := by exact_mod_cast hk
  have hkQ' : (k : ℚ) ≤ 10 ^ 10 := by exact_mod_cast hk'
  refine fun y _ => hQ _ _ _ ⟨⟨⟨k, hvalue⟩, ?_, ?_⟩, ⟨h.amountUsdt_places, h.amountUsdt⟩,
    h.commission_places, h.commission.1, ?_⟩
  · show 0 < r.amountRub.value
    rw [hvalue]
    positivity
  · show r.amountRub.value < 10 ^ 16
    rw [hvalue, hundredth]
    linarith
  · show commission.value < 10 ^ 16
    linarith [h.commission.2]

/-- The row that a request with this promo code can reserve from now on. -/
def Reservable (s : Shared signature) (code : String) (p : PromoCode) : Prop :=
  ∃ now, s.ext.now ≤ now ∧ s.db.promoCodes.rows.find? (Usable code now) = some p

/-- The discounts that a request can get from now on. -/
inductive Offered (s : Shared signature) : Option String → Decimal → Prop
  | none : Offered s none (.ofNat 0)
  | code {code : String} {p : PromoCode} : Reservable s code p →
      Offered s (some code) p.discountPercent.toDecimal

/-- PostgreSQL takes the promo code of the request, and counts one more use of its row. -/
structure CodeFits (r : DepositCreateRequest) (s : Shared signature) : Prop where
  text : ∀ code ∈ r.promoCode, storableText code = true
  uses : ∀ code ∈ r.promoCode, ∀ p, Reservable s code p → p.usedCount < maxInteger

/-- The request is refused before it has a quote, by the limits of the settings or by the
blacklist. -/
def RefusedEarly (unicode : Unicode) (settings : Settings) (r : DepositCreateRequest)
    (d : Database) : Prop :=
  (r.amountRub < settings.depositMinRub ∨ settings.depositMaxRub < r.amountRub) ∨
    ∃ e ∈ d.blacklist.rows, e.type = .email ∧ e.value = unicode.lower r.user.email ∨
      e.type = .uid ∧ e.value = r.bingxUid ∨ e.type = .ip ∧ r.ipAddress = some e.value

theorem Offered.quotable {discount : Decimal} (h : Offered s r.promoCode discount) :
    Quotable r.amountRub discount := by
  obtain ⟨k, hk, hk', hvalue⟩ := r.exists_kopecks
  have hkQ : (0 : ℚ) < k := by exact_mod_cast hk
  have hkQ' : (k : ℚ) ≤ 10 ^ 10 := by exact_mod_cast hk'
  have hpositive : 0 < r.amountRub.value := by
    rw [hvalue]
    positivity
  have hle : r.amountRub.value ≤ 10 ^ 8 := by
    rw [hvalue, hundredth]
    linarith
  generalize r.promoCode = code at h
  cases h with
  | none => exact ⟨hpositive, hle, ⟨k, hvalue⟩, by simp, ⟨0, by simp⟩⟩
  | @code _ p _ =>
    have hdiscount : p.discountPercent.toDecimal.value = p.discountPercent * 10 ^ (-2 : ℤ) :=
      value_ofUnits _ _
    obtain ⟨hlow, hhigh⟩ := p.discount_range
    have hlow : (0 : ℚ) ≤ p.discountPercent := by exact_mod_cast hlow
    have hhigh : (p.discountPercent : ℚ) ≤ 10000 := by exact_mod_cast hhigh
    refine ⟨hpositive, hle, ⟨k, hvalue⟩, ?_, ⟨p.discountPercent, hdiscount⟩⟩
    rw [hdiscount, hundredth]
    constructor <;> linarith

/-- A reservation within the limits. -/
theorem updatePromoReserve_eq {code : String} {now : Timestamp} {locked : Row → LockMode → Bool}
    {d : Database} (htext : storableText code = true)
    (huses : ∀ p, d.promoCodes.rows.find? (Usable code now) = some p → p.usedCount < maxInteger) :
    updatePromoReserve code now locked d = .ok (
      match d.promoCodes.rows.find? (Usable code now) with
      | none => { value := none }
      | some p => {
          value := some (p.id, p.discountPercent)
          writes := [.promoCode { p with usedCount := p.usedCount + 1 }] }) := by
  rw [updatePromoReserve, if_pos htext]
  cases hp : d.promoCodes.rows.find? (Usable code now) with
  | none => rfl
  | some p => exact if_pos (huses p hp)

/-- The promo code part of a request: what goes on with each discount that can be got. -/
theorem after_applyPromoCode {started : Timestamp} {b : Bingx} (hnow : s.ext.now ≤ started)
    (hreg : Regular r id s.db) (hfits : CodeFits r s) (hx : x.pending = [])
    {Q : Except Error (Option String × Decimal) → Txn signature → Shared signature → Prop}
    (hrefused : ∀ detail x' s', Q (.error (.badRequest detail)) x' s')
    (hnext : ∀ promoCodeId discount x' s', s'.db = s.db → x'.idents = x.idents →
      Offered s r.promoCode discount → Regular r id (replay x'.pending s'.db) →
      promoCodeId.all (fun p => ((replay x'.pending s'.db).promoCodes.find? p).isSome) = true →
      promoCodeId.all storableText = true → Q (.ok (promoCodeId, discount)) x' s') :
    (applyPromoCode r.promoCode started).After (bank unicode) Q x ⟨s.db, b⟩ := by
  unfold applyPromoCode
  split
  · next hcode =>
    intro y _
    refine hnext _ _ _ _ rfl rfl (hcode ▸ .none) ?_ rfl rfl
    rw [hx]
    exact hreg
  · next code hcode =>
    have heq : updatePromoReserve code started (fun _ _ => false) s.db = .ok _ :=
      updatePromoReserve_eq (hfits.text code hcode) fun p hp =>
        hfits.uses code hcode p ⟨started, hnow, hp⟩
    refine after_exec_bind (fun e y hq => ?_) fun eff y hq _ => ?_
    · rw [hx, replay_nil, heq] at hq
      cases hq
    · rw [hx, replay_nil, heq] at hq
      cases hp : s.db.promoCodes.rows.find? (Usable code started) with
      | none =>
        rw [hp] at hq
        cases hq
        exact fun z _ => hrefused _ _ _
      | some p =>
        rw [hp] at hq
        cases hq
        have hmem := List.mem_of_find?_eq_some hp
        intro z _
        have hpending {s₁ : Shared signature} {v : Option (String × Numeric 2)} {ws : List Write} :
            (x.executed s₁ { value := v, writes := ws }).pending = ws := by
          simp [Txn.executed, hx]
        refine hnext (some p.id) _ _ _ rfl rfl (hcode ▸ .code ⟨started, hnow, hp⟩) ?_ ?_
          (hreg.promoCodes p hmem)
        · rw [hpending]
          exact hreg.reserved hmem
        · rw [hpending]
          exact Option.isSome_iff_exists.mpr ⟨_, Table.find?_put_self _ _⟩

variable {settings : Settings}

/-- The rest of `createDeposit`, once its discount is known. -/
def quoteDeposit (settings : Settings) (r : DepositCreateRequest) (promoCodeId : Option String)
    (discount : Decimal) : Handler DepositCreateResponse := do
  let now ← Prog.now
  let transactionId ← uuid
  match calculateDepositAmounts r.amountRub settings discount with
  | .error signal => raise (.decimal signal)
  | .ok (commission, amountUsdt) =>
    if amountUsdt ≤ .ofNat 0 then
      raise (.badRequest "Deposit amount is too low after commission")
    else
      recordDeposit r transactionId promoCodeId commission amountUsdt now

theorem after_quote {discount : Decimal} (hreg : Regular r id (replay x.pending s.db))
    (hpromo : promoCodeId.all
      (fun p => ((replay x.pending s.db).promoCodes.find? p).isSome) = true)
    (hpromo' : promoCodeId.all storableText = true) (hquotable : Quotable r.amountRub discount)
    (hpay : Payable settings r.amountRub discount)
    {Q : Except Error DepositCreateResponse → Txn signature → Shared signature → Prop}
    (hother : ∀ result x' s' i, i ∈ x'.idents → i ≠ id → Q result x' s')
    (hrefused : ∀ detail x' s', Q (.error (.badRequest detail)) x' s')
    (hQ : ∀ v x' s', FitsColumns v → Q (.ok v) x' s') :
    (quoteDeposit settings r promoCodeId discount).After (bank unicode) Q x s := by
  refine after_now_bind fun y _ => fun z _ i => ?_
  by_cases hi : i = id
  · subst hi
    rcases hquotable.quote_cases settings with ⟨-, hno⟩ |
      ⟨commission, amountUsdt, hquote, hplaces, hc0, hc1, hu, hu0, hiff⟩
    · exact absurd hpay hno
    rw [hquote]
    dsimp only
    split
    · exact fun _ _ => hrefused _ _ _
    · next hpositive =>
      have hpositive : 0 < amountUsdt.value := by
        rw [le_iff_value, value_ofNat, not_le] at hpositive
        exact_mod_cast hpositive
      exact after_recordDeposit hreg hpromo hpromo'
        ⟨hplaces, ⟨hc0, hc1⟩, hu, hpositive, hiff.mpr hpay⟩ hQ
  · refine After.of_idents fun result x' s' hpre => hother result x' s' i ?_ hi
    exact hpre.mem (List.mem_append_right _ List.mem_cons_self)

theorem blacklisted_iff {unicode : Unicode} {r : DepositCreateRequest} {d : Database}
    {locked : Row → LockMode → Bool} {eff : Effect Write Row Bool}
    (h : selectBlacklisted (unicode.lower r.user.email) r.bingxUid r.ipAddress locked d = .ok eff) :
    eff = { value := eff.value, writes := [], locks := [] } ∧ (eff.value = true ↔
      ∃ e ∈ d.blacklist.rows, e.type = .email ∧ e.value = unicode.lower r.user.email ∨
        e.type = .uid ∧ e.value = r.bingxUid ∨ e.type = .ip ∧ r.ipAddress = some e.value) := by
  rw [← Except.ok.inj h]
  simp

/-- A request with a promo code and a quote that fit, or refused before, ends within the limits. -/
theorem after_createDeposit (hreg : Regular r id s.db)
    (h : RefusedEarly unicode settings r s.db ∨ CodeFits r s ∧
      ∀ discount, Offered s r.promoCode discount → Payable settings r.amountRub discount) :
    (program unicode (.createDeposit settings r)).After (bank unicode)
      (fun result x _ => (∀ i ∈ x.idents, i = id) → EndsWithin result) {} s := by
  refine (after_bind (S := bank unicode)).mpr (after_now_bind fun y hy => ?_)
  have hnow : s.ext.now ≤ y.now := passes_now hy
  split
  · exact fun _ _ _ => trivial
  next hlimits =>
  refine (after_bind (S := bank unicode)).mpr (after_exec_bind (fun e z hq => by cases hq)
    fun eff z hq hz => ?_)
  obtain ⟨heff, hbanned⟩ := blacklisted_iff hq
  split
  · exact fun _ _ _ => trivial
  next hfree =>
  obtain ⟨hfits, hpay⟩ := h.resolve_left fun hearly =>
    hearly.elim hlimits fun hrow => hfree (hbanned.mpr hrow)
  intro z' hz'
  have hpending : (({} : Txn signature).executed ⟨s.db, z⟩ eff).pending = [] := by
    rw [heff]
    rfl
  refine (after_bind (S := bank unicode)).mpr (after_applyPromoCode hnow hreg hfits hpending
    (fun _ _ _ _ => trivial)
    fun promoCodeId discount x' s' hdb hidents hoffered hreg' hpromo hpromo' => ?_)
  refine after_quote hreg' hpromo hpromo' hoffered.quotable (hpay _ hoffered)
    (fun result x'' s'' i hi hne => ?_) (fun _ _ _ _ => trivial) fun v x'' s'' hv z'' _ _ => hv
  cases result with
  | error e => exact fun hall => absurd (hall i hi) hne
  | ok v => exact fun _ _ hall => absurd (hall i hi) hne

/-- A promo code fits if no run of the promo code part fails on it. -/
theorem CodeFits.of_after (unicode : Unicode)
    {Q : Except Error (Option String × Decimal) → Txn signature → Shared signature → Prop}
    {f : Bingx → Txn signature} (hf : ∀ y, (f y).pending = [])
    (hafter : ∀ y : Bingx, Passes (bank unicode) s.ext y →
      (applyPromoCode r.promoCode y.now).After (bank unicode) Q (f y) ⟨s.db, y⟩)
    (htext : ∀ y, ¬ Q (.error .dataException) (f y) ⟨s.db, y⟩)
    (huses : ∀ y, ¬ Q (.error .numericValueOutOfRange) (f y) ⟨s.db, y⟩) : CodeFits r s := by
  refine ⟨fun code hcode => ?_, fun code hcode p hp => ?_⟩
  · by_contra hno
    have h := hafter s.ext .refl
    rw [Option.mem_def.mp hcode] at h
    refine htext _ (of_after_exec_bind_error h ?_)
    rw [updatePromoReserve, if_neg hno]
  · by_contra hno
    obtain ⟨now, hnow, hp⟩ := hp
    obtain ⟨y, hy, rfl⟩ := exists_passes unicode hnow
    have h := hafter y hy
    rw [Option.mem_def.mp hcode] at h
    have hq : updatePromoReserve code y.now (fun _ _ => false) (replay (f y).pending s.db) =
        if storableText code then .error .numericValueOutOfRange else .error .dataException := by
      rw [hf, replay_nil, updatePromoReserve, hp]
      simp only [if_neg hno]
    split at hq
    · exact huses _ (of_after_exec_bind_error h hq)
    · exact htext _ (of_after_exec_bind_error h hq)

/-- The discount can be got in a run of the promo code part. -/
theorem Offered.of_after (unicode : Unicode) {discount : Decimal} (hfits : CodeFits r s)
    (h : Offered s r.promoCode discount)
    {Q : Except Error (Option String × Decimal) → Txn signature → Shared signature → Prop}
    {f : Bingx → Txn signature} (hf : ∀ y, (f y).pending = [] ∧ (f y).idents = [])
    (hafter : ∀ y : Bingx, Passes (bank unicode) s.ext y →
      (applyPromoCode r.promoCode y.now).After (bank unicode) Q (f y) ⟨s.db, y⟩) :
    ∃ promoCodeId x s', x.idents = [] ∧ Q (.ok (promoCodeId, discount)) x s' := by
  generalize hcode : r.promoCode = code at h hafter
  cases h with
  | none => exact ⟨Option.none, f s.ext, s, (hf s.ext).2, hafter s.ext .refl s.ext .refl⟩
  | @code code p hp =>
    obtain ⟨now, hnow, hfind⟩ := hp
    obtain ⟨y, hy, rfl⟩ := exists_passes unicode hnow
    have hq : updatePromoReserve code y.now (fun _ _ => false) (replay (f y).pending s.db) =
        .ok { value := some (p.id, p.discountPercent)
              writes := [.promoCode { p with usedCount := p.usedCount + 1 }] } := by
      rw [(hf y).1, replay_nil, updatePromoReserve_eq (hfits.text code hcode) fun p hp =>
        hfits.uses code hcode p ⟨y.now, hnow, hp⟩, hfind]
    exact ⟨some p.id, (f y).executed ⟨s.db, y⟩ _, _, (hf y).2,
      of_after_exec_bind (hafter y hy) hq y .refl⟩

/-- The insert of an amount that does not fit its column. -/
theorem insertTransaction_overflow {d : Database} {locked : Row → LockMode → Bool}
    (hplaces : amountUsdt.Places 8) (h : 10 ^ 10 ≤ amountUsdt.value) :
    insertTransaction (newTransaction r id promoCodeId commission amountUsdt now) locked d =
      .error .numericValueOutOfRange := by
  obtain ⟨n, hn⟩ := hplaces
  have hpow : (10 : ℚ) ^ (-(8 : ℕ) : ℤ) = 1 / 10 ^ 8 := by norm_num
  have hge : 10 ^ 18 ≤ n := by
    rw [hn, hpow] at h
    have hge : (10 ^ 18 : ℚ) ≤ n := by linarith
    exact_mod_cast hge
  have hnone : toNumeric 18 8 amountUsdt = none := by
    rw [toNumeric_eq hn (by omega), if_neg (by omega)]
  obtain ⟨k, hk, -⟩ := toNumeric_amountRub r
  simp only [insertTransaction, newTransaction, hnone, hk]

/-- The promo code part of a request that is not refused before, in all its runs. -/
theorem after_promo (hlater : ¬ RefusedEarly unicode settings r s.db)
    {Q : Except Error Result → Txn signature → Shared signature → Prop}
    (hafter : (program unicode (.createDeposit settings r)).After (bank unicode) Q {} s) :
    ∃ f : Bingx → Txn signature, (∀ y, (f y).pending = [] ∧ (f y).idents = []) ∧
      ∀ y : Bingx, Passes (bank unicode) s.ext y →
        (applyPromoCode r.promoCode y.now).After (bank unicode) (fun result x s' =>
          match result with
          | .error e => Q (.error e) x s'
          | .ok (promoCodeId, discount) =>
            (quoteDeposit settings r promoCodeId discount >>= fun v =>
              pure (Result.deposit v)).After (bank unicode) Q x s') (f y) ⟨s.db, y⟩ := by
  obtain ⟨hlimits, hrow⟩ := not_or.mp hlater
  have hcreate := (after_bind (S := bank unicode)).mp hafter
  let eff : Effect Write Row Bool := { value := false }
  have hq : selectBlacklisted (unicode.lower r.user.email) r.bingxUid r.ipAddress
      (fun _ _ => false) s.db = .ok eff := by
    have hnone : (s.db.blacklist.rows.any fun e =>
        decide (e.type = .email ∧ e.value = unicode.lower r.user.email ∨
          e.type = .uid ∧ e.value = r.bingxUid ∨ e.type = .ip ∧ r.ipAddress = some e.value)) =
        false := by
      simpa using hrow
    rw [selectBlacklisted, hnone]
  refine ⟨fun y => ({} : Txn signature).executed ⟨s.db, y⟩ eff, fun y => ⟨rfl, rfl⟩, fun y hy => ?_⟩
  have h := of_after_now_bind hcreate hy
  rw [if_neg hlimits] at h
  have h := of_after_exec_bind ((after_bind (S := bank unicode)).mp h) hq
  refine After.mono ((after_bind (S := bank unicode)).mp (h y .refl)) fun result x s' h => ?_
  cases result with
  | error e => exact h
  | ok v => exact (after_bind (S := bank unicode)).mpr h

/-- A request whose promo code does not fit, if it is not refused before, does not always end
within the limits. -/
theorem codeFits_of_after (hlater : ¬ RefusedEarly unicode settings r s.db)
    (hafter : (program unicode (.createDeposit settings r)).After (bank unicode)
      (fun result x _ => (∀ i ∈ x.idents, i = id) → EndsWithin result) {} s) : CodeFits r s := by
  obtain ⟨f, hf, hrun⟩ := after_promo hlater hafter
  refine .of_after unicode (fun y => (hf y).1) hrun (fun y h => ?_) fun y h => ?_
  · exact h (by simp [(hf y).2])
  · exact h (by simp [(hf y).2])

/-- A request with a quote that does not fit, if it is not refused before, does not always end
within the limits. -/
theorem payable_of_after (hlater : ¬ RefusedEarly unicode settings r s.db) (hfits : CodeFits r s)
    {discount : Decimal} (hoffered : Offered s r.promoCode discount)
    (hafter : (program unicode (.createDeposit settings r)).After (bank unicode)
      (fun result x _ => (∀ i ∈ x.idents, i = id) → EndsWithin result) {} s) :
    Payable settings r.amountRub discount := by
  by_contra hno
  obtain ⟨f, hf, hrun⟩ := after_promo hlater hafter
  obtain ⟨promoCodeId, x, s', hidents, hquote⟩ := hoffered.of_after unicode hfits hf hrun
  have hquote := (after_bind (S := bank unicode)).mp hquote
  have h := of_after_uuid_bind (of_after_now_bind hquote .refl) id
  have hall : ∀ i ∈ (x.given id).idents, i = id := by
    simp [Txn.given, hidents]
  rcases hoffered.quotable.quote_cases settings with ⟨⟨signal, hsignal⟩, -⟩ |
    ⟨commission, amountUsdt, hcalc, -, -, -, hplaces, hu0, hiff⟩
  · rw [hsignal] at h
    exact h _ .refl hall
  · have hlarge : 10 ^ 10 ≤ amountUsdt.value := not_lt.mp (hiff.not.mpr hno)
    have hpositive : ¬ amountUsdt ≤ .ofNat 0 := by
      rw [le_iff_value, value_ofNat, not_le]
      push_cast
      linarith
    rw [hcalc] at h
    dsimp only at h
    rw [if_neg hpositive] at h
    exact of_after_exec_bind_error h (insertTransaction_overflow hplaces hlarge) hall

/-- A request ends within the limits, whatever happens, exactly when it is refused before it has a
quote, or when PostgreSQL takes its promo code and each quote that it can get fits the columns. -/
theorem createDeposit_fits_iff (hreg : Regular r id s.db) :
    (∀ result x s', Ends (bank unicode) (.createDeposit settings r) s (some result) x s' →
      (∀ i ∈ x.idents, i = id) → EndsWithin result) ↔
    RefusedEarly unicode settings r s.db ∨ CodeFits r s ∧
      ∀ discount, Offered s r.promoCode discount → Payable settings r.amountRub discount := by
  have hafter : (∀ result x s',
      Ends (bank unicode) (.createDeposit settings r) s (some result) x s' →
      (∀ i ∈ x.idents, i = id) → EndsWithin result) ↔
      (program unicode (.createDeposit settings r)).After (bank unicode)
        (fun result x _ => (∀ i ∈ x.idents, i = id) → EndsWithin result) {} s := by
    rw [after_iff (S := bank unicode)]
    constructor
    · exact fun h result x s' ha => h result x _ ⟨ha⟩
    · rintro h result x s' ⟨ha⟩
      exact h result x _ ha
  rw [hafter]
  refine ⟨fun h => ?_, after_createDeposit hreg⟩
  by_cases hearly : RefusedEarly unicode settings r s.db
  · exact .inl hearly
  · have hfits := codeFits_of_after hearly h
    exact .inr ⟨hfits, fun discount hoffered => payable_of_after hearly hfits hoffered h⟩

end

theorem regular_aliceDeposit : Regular aliceDeposit "deposit" launch.db where
  user := rfl
  new := rfl
  id := by decide
  ipAddress := rfl
  deviceFingerprint := rfl
  userAgent := rfl
  userId := by decide
  userIds := fun t ht => by cases ht
  promoCodes := fun p hp => by cases hp

/-- At a rate of 95 the quote of 5000 roubles fits. -/
theorem createDeposit_fits_iff_alice : ∃ v x s',
    Ends (bank .ascii) (.createDeposit depositSettings aliceDeposit) launch
      (some (.ok (.deposit v))) x s' ∧ FitsColumns v := by
  have hplay : ((program .ascii (.createDeposit depositSettings aliceDeposit)).play (bank .ascii)
      [] ["deposit"] {} launch).map (fun o => (o.2.1.idents, o.1.isOk)) =
        some (["deposit"], true) := by
    decide +kernel
  obtain ⟨⟨result, x, s'⟩, hplay, hobs⟩ := Option.map_eq_some_iff.mp hplay
  obtain ⟨hidents, hok⟩ := Prod.mk.inj hobs
  have hidents : x.idents = ["deposit"] := hidents
  have hends : Ends (bank .ascii) (.createDeposit depositSettings aliceDeposit) launch (some result)
      x _ := ⟨Prog.alone_of_play hplay⟩
  have hwithin := (createDeposit_fits_iff regular_aliceDeposit).mpr
    (.inr ⟨⟨(by simp [aliceDeposit]), (by simp [aliceDeposit])⟩, fun discount hoffered => by
      obtain ⟨commission, -, -, hc, -, -, hc0, -⟩ :=
        hoffered.quotable.exists_commission depositSettings
      have hamount : aliceDeposit.amountRub.value = 5000 := value_ofNat 5000
      have hrate : depositSettings.rubUsdtRate.value = 95 := value_ofNat 95
      rw [hc] at hc0
      rw [Payable, hrate, usdtLimit]
      rw [hamount] at hc0 ⊢
      linarith⟩) result x _ hends (by simp [hidents])
  cases result with
  | error e => cases hok
  | ok v =>
    cases v with
    | deposit v => exact ⟨v, x, _, hends, hwithin⟩
    | _ => exact hwithin.elim

/-- A rate that the validators accept. -/
def tinyRate : Settings := { depositSettings with
  rubUsdtRate := .ofUnits 1 (-30)
  rate_positive := by decide }

/-- With such a rate the rounding of the quote signals an error. -/
theorem not_createDeposit_fits : ¬ ∀ (unicode : Unicode) (settings : Settings)
    (r : DepositCreateRequest) (id : String) (s s' : Shared signature)
    (result : Except Error Result) (x : Txn signature), Regular r id s.db →
    Ends (bank unicode) (.createDeposit settings r) s (some result) x s' →
    (∀ i ∈ x.idents, i = id) → EndsWithin result := by
  intro h
  have hplay : ((program .ascii (.createDeposit tinyRate aliceDeposit)).play (bank .ascii) []
      ["deposit"] {} launch).map (fun o => (o.2.1.idents, ((o.1.map fun _ => false).tryCatch
        fun e => .ok (decide (e = .decimal .invalidOperation))).toOption)) =
        some (["deposit"], some true) := by
    decide +kernel
  obtain ⟨⟨result, x, s'⟩, hplay, hobs⟩ := Option.map_eq_some_iff.mp hplay
  obtain ⟨hidents, herror⟩ := Prod.mk.inj hobs
  have hidents : x.idents = ["deposit"] := hidents
  have hends := h .ascii tinyRate aliceDeposit "deposit" launch _ result x regular_aliceDeposit
    ⟨Prog.alone_of_play hplay⟩ (by simp [hidents])
  cases result with
  | ok v => cases herror
  | error e =>
    obtain rfl : e = .decimal .invalidOperation := of_decide_eq_true (Option.some.inj herror)
    exact hends

end MoneyWay
