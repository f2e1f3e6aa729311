import Mathlib.Algebra.BigOperators.Ring.List
import MoneyWay.Escrow

/-!
# What is paid out is covered

BingX has never accepted payouts that are worth more, at the lowest rate any deposit was quoted
at, than what has been taken in for deposits that were paid, less the commission. This is so after
every step of every history, with deposits at different rates and commissions side by side: the
quotes are rounded down one by one, so that nothing has to be made up for.
-/

set_option autoImplicit false

namespace MoneyWay

open Keyed ReadCommitted Python Sql Escrow Decimal Decimal.Context

/-- The deposits are quoted at this rate or a higher one, with eight places. -/
def Job.QuotesAtLeast (rate : ℚ) : Job → Prop
  | .createDeposit settings _ => settings.rubUsdtRate.Places 8 ∧ rate ≤ settings.rubUsdtRate.value
  | _ => True

/-- The deposits that have been paid: their payout is scheduled, or more. -/
def Database.received (d : Database) : List Transaction :=
  d.transactions.rows.filter fun t => (d.transferOf t.id).isSome

/-- What has been taken in for them in roubles, less the commission. -/
def takenIn (d : Database) : ℚ :=
  (d.received.map fun t => t.amountRub.toDecimal.value - t.commission.toDecimal.value).sum

/-- What BingX has paid out, in USDT. -/
def paidOut (b : Bingx) : ℚ := (b.accepted.map fun q => q.amountUsdt.toDecimal.value).sum

/-! ## One quote -/

/-- The USDT of a quote are not worth more than what is left of the amount. -/
theorem quote_covered {settings : Settings} {amountRub discount commission amountUsdt : Decimal}
    (h : Quotable amountRub discount) (hrate : settings.rubUsdtRate.Places 8)
    (hquote : calculateDepositAmounts amountRub settings discount = .ok (commission, amountUsdt)) :
    amountUsdt.value * settings.rubUsdtRate.value ≤ amountRub.value - commission.value := by
  obtain ⟨commission', netRub, hcalc, -, hnet, ⟨c, hplaces⟩, hc0, hc1⟩ :=
    h.exists_commission settings
  obtain ⟨k, hk, -, hk1⟩ := h.exists_kopecks
  obtain ⟨m, hm⟩ := hrate
  have hplaces : commission'.value = c * 10 ^ (-2 : ℤ) := hplaces
  have hm : settings.rubUsdtRate.value = m * 10 ^ (-8 : ℤ) := hm
  have hpos := value_rate settings
  have hm0 : 0 < m := by
    rw [hm] at hpos
    exact_mod_cast pos_of_mul_pos_left hpos (by positivity)
  have hn : netRub.value = (k - c : ℤ) * 10 ^ (-2 : ℤ) := by
    rw [hnet, hk, hplaces]
    push_cast
    ring
  have hle : c ≤ k := by
    rw [hplaces, hk, hundredth] at hc1
    have hle : (c : ℚ) ≤ k := by linarith
    exact_mod_cast hle
  have hnonneg : 0 ≤ c := by
    rw [hplaces, hundredth] at hc0
    have hle : (0 : ℚ) ≤ c := by linarith
    exact_mod_cast hle
  obtain ⟨q, u, hq, hu, huv⟩ := exists_usdt hn (by omega) (by omega) hm hm0
  have hok : calculateDepositAmounts amountRub settings discount = .ok (commission', u) := by
    rw [hcalc, hq]
    simp only [bind, Except.bind, hu]
    rfl
  rw [hok] at hquote
  cases hquote
  rw [huv, ← hnet]
  exact exactUsdt_mul_le hpos

theorem Reserved.quotable {s : Shared signature} {r : DepositCreateRequest}
    {promoCodeId : Option String} {discount : Decimal} {ws : List Write}
    (h : Reserved s r.promoCode promoCodeId discount ws) : Quotable r.amountRub discount := by
  have hnone : Quotable r.amountRub (.ofNat 0) :=
    Offered.quotable (s := s)
      (r := { r with promoCode := Option.none, promoCode_nonempty := by simp }) .none
  cases h with
  | none => exact hnone
  | code p =>
    have hdiscount : p.discountPercent.toDecimal.value = p.discountPercent * 10 ^ (-2 : ℤ) :=
      value_ofUnits _ _
    obtain ⟨hlow, hhigh⟩ := p.discount_range
    have hlow : (0 : ℚ) ≤ p.discountPercent := by exact_mod_cast hlow
    have hhigh : (p.discountPercent : ℚ) ≤ 10000 := by exact_mod_cast hhigh
    refine ⟨hnone.positive, hnone.le, hnone.places, ?_, ⟨p.discountPercent, hdiscount⟩⟩
    rw [hdiscount, hundredth]
    constructor <;> linarith

/-! ## Every deposit -/

/-- Each deposit is worth what it owes. -/
def Funded (rate : ℚ) (s : Shared signature) : Prop :=
  ∀ t ∈ s.db.transactions.rows, rate * t.terms.amountUsdt ≤ t.terms.amountRub - t.terms.commission

theorem Transaction.SameQuote.terms {t t' : Transaction} (h : t.SameQuote t') :
    t'.terms = t.terms := by
  simp only [Transaction.terms, h.amountRub, h.amountUsdt, h.commission]

theorem amountUsdt_pos (t : Transaction) : 0 < t.terms.amountUsdt := by
  have hvalue : t.terms.amountUsdt = t.amountUsdt * 10 ^ (-8 : ℤ) := value_ofUnits _ _
  have hpos : (0 : ℚ) < t.amountUsdt := by exact_mod_cast t.amounts_positive.2.1
  rw [hvalue]
  positivity

/-- A new deposit is worth what it owes. -/
theorem covered_of_created {unicode : Unicode} {rate : ℚ} {j : Job} {v : Result}
    {x : Txn signature} {s : Shared signature} {f : File} (hj : j.QuotesAtLeast rate)
    (ho : Outcome unicode j v x s)
    (hstep : FileStep unicode x s f.transaction.id j v none (some f)) :
    rate * f.transaction.terms.amountUsdt ≤
      f.transaction.terms.amountRub - f.transaction.terms.commission := by
  have hpos := amountUsdt_pos f.transaction
  cases hstep with
  | created hquote hstored =>
    -- the discount of the request that has reserved its code
    cases ho.1 with
    | created hreserved hquote' _ =>
      obtain ⟨hrate, hle⟩ := hj
      rw [terms_of_storedAs hquote hstored] at hpos ⊢
      have hcovered := quote_covered hreserved.quotable hrate hquote'
      simp only [DepositCreateResponse.terms] at hpos ⊢
      nlinarith

/-- A commit keeps it. -/
theorem Funded.commit {unicode : Unicode} {rate : ℚ} {j : Job} {v : Result} {x : Txn signature}
    {s : Shared signature} (h : Funded rate s) (hj : j.QuotesAtLeast rate) (hs : Inv s)
    (hpast : ∀ q ∈ x.snapshots, Inv q) (ho : Outcome unicode j v x s)
    (hevolves : Evolves s.db (replay x.pending s.db)) :
    Funded rate ⟨replay x.pending s.db, s.ext⟩ := by
  intro t ht
  have hfind := Table.find?_of_mem ht
  cases hbefore : s.db.transactions.find? t.id with
  | some t₀ =>
    obtain ⟨t₁, ht₁, hmoves⟩ := hevolves.transaction t.id t₀ hbefore
    obtain rfl := Option.some.inj (hfind.symm.trans ht₁)
    rw [hmoves.quote.terms]
    exact h t₀ (Table.mem_of_find? hbefore)
  | none =>
    have hstep := Outcome.fileStep hs hpast ho t.id
    rw [Database.file_eq_none.mpr hbefore, Database.file_of_find? hfind] at hstep
    exact covered_of_created (f := ⟨t, _, _⟩) hj ho hstep

/-! ## Every history -/

/-- The contract `payments` with a price for every deposit. -/
theorem funded_valid (unicode : Unicode) (rate : ℚ) :
    ({ payments unicode with inv := fun s => Inv s ∧ Funded rate s } : Contract signature).Valid
      (bank unicode) fun j => j.Together ∧ j.QuotesAtLeast rate := by
  refine ((payments_valid unicode).mono fun _ _ => trivial).strengthen (fun _ h => h.1)
    (fun _ _ h => h) fun j v x s hj hs hfunded hpast ho => ?_
  have hpast' : (payments unicode).Past x s := fun q hq =>
    ⟨(hpast q hq).1.1, (hpast q hq).2.weaken _ (fun _ h => h.1) fun _ _ h => h⟩
  have hg : Guar s ⟨replay x.pending s.db, s.ext⟩ :=
    ((payments_valid unicode).commit j v x s trivial hj.1 hs hpast' ho).1
  exact hfunded.commit hj.2 hs (fun q hq => (hpast q hq).1.1) ho hg.db

section

variable {unicode : Unicode} {start : Shared signature} {tr : List (Transition signature)}
  {w : World signature}

theorem run_funded (hs : Opening start) (hr : Run (bank unicode) start tr w) {rate : ℚ}
    (hj : Contract.Starts (fun j : Job => j.Together ∧ j.QuotesAtLeast rate) tr) :
    Funded rate w.shared :=
  ((funded_valid unicode rate).run ⟨hs.inv, by simp [Funded, hs.transactions]⟩ hr hj).inv.2

/-- What the machine has given out is what BingX has paid out. -/
theorem Reflects.paidOut_eq {b : Book String Terms} (h : Reflects w b) (hi : Inv w.shared) :
    paidOut w.shared.ext =
      (b.released.map fun id => ((b.terms id).map (·.amountUsdt)).getD 0).sum := by
  have hamount : ∀ q ∈ w.shared.ext.accepted, q.amountUsdt.toDecimal.value =
      ((b.terms (transactionOf q.idempotencyKey)).map (·.amountUsdt)).getD 0 := by
    intro q hq
    obtain ⟨y, hy, rfl⟩ := hi.ledger.accepted q hq
    obtain ⟨t, ht, -, hpays⟩ := hi.sound.owner y hy
    have hkey : y.request.idempotencyKey = idempotencyKey y.transactionId :=
      hi.sound.idempotencyKey_eq hy
    have hamount : y.request.amountUsdt = t.amountUsdt := hpays.amountUsdt
    rw [hkey, transactionOf_idempotencyKey, h.terms, standing, Database.file_of_find? ht, hamount]
    rfl
  have hkeys : b.released.reverse =
      w.shared.ext.accepted.map fun q => transactionOf q.idempotencyKey := by
    have hmap := congrArg (List.map transactionOf) h.released
    simp only [List.map_map, Function.comp_def, transactionOf_idempotencyKey, List.map_id'] at hmap
    exact hmap.symm
  calc paidOut w.shared.ext
      = (w.shared.ext.accepted.map fun q =>
          ((b.terms (transactionOf q.idempotencyKey)).map (·.amountUsdt)).getD 0).sum :=
        congrArg List.sum (List.map_congr_left hamount)
    _ = (b.released.reverse.map fun id => ((b.terms id).map (·.amountUsdt)).getD 0).sum := by
      rw [hkeys, List.map_map]
      rfl
    _ = _ := ((List.reverse_perm _).map _).sum_eq

/-- What the machine has taken in are the deposits that have been paid. -/
theorem Reflects.received_perm {b : Book String Terms} (h : Reflects w b) (hb : b.Kept) :
    b.received.Perm (w.shared.db.received.map (·.id)) := by
  refine (List.perm_ext_iff_of_nodup hb.received ?_).mpr fun id => ?_
  · exact (List.filter_sublist.map _).nodup w.shared.db.transactions.nodup
  · rw [h.received, List.mem_map]
    constructor
    · rintro ⟨d, hd, hin⟩
      obtain ⟨f, hf, rfl⟩ := Option.map_eq_some_iff.mp hd
      obtain ⟨ht, htransfer, -⟩ := Database.find?_of_file hf
      obtain rfl := Table.key_of_find? ht
      refine ⟨f.transaction, List.mem_filter.mpr ⟨Table.mem_of_find? ht, ?_⟩, rfl⟩
      rw [htransfer]
      exact hin
    · rintro ⟨t, ht, rfl⟩
      obtain ⟨hmem, hin⟩ := List.mem_filter.mp ht
      refine ⟨File.standing ⟨t, w.shared.db.transferOf t.id, w.shared.db.kycRecords.find? t.id⟩, ?_,
        hin⟩
      rw [standing, Database.file_of_find? (Table.find?_of_mem hmem)]
      rfl

/-- Nothing is paid out that is not covered. -/
theorem payouts_covered (hs : Opening start) (hr : Run (bank unicode) start tr w) {rate : ℚ}
    (hrate : 0 ≤ rate)
    (hj : Contract.Starts (fun j : Job => j.Together ∧ j.QuotesAtLeast rate) tr) :
    rate * paidOut w.shared.ext ≤ takenIn w.shared.db := by
  have hi := run_inv hs hr
  have hfunded := run_funded hs hr hj
  obtain ⟨b, hrun, hb⟩ := histories_refine_escrow hs hr fun x hx i j h => (hj x hx i j h).1
  have hkept := kept_of_run hrun
  have hvalue : ∀ t ∈ w.shared.db.transactions.rows, b.terms t.id = some t.terms := by
    intro t ht
    rw [hb.terms, standing, Database.file_of_find? (Table.find?_of_mem ht)]
    rfl
  have hrow : ∀ id ∈ b.received, ∃ t ∈ w.shared.db.transactions.rows, t.id = id := by
    intro id hid
    obtain ⟨t, ht, rfl⟩ := List.mem_map.mp ((hb.received_perm hkept).mem_iff.mp hid)
    exact ⟨t, (List.mem_filter.mp ht).1, rfl⟩
  have hcost : ∀ id ∈ b.received, rate * ((b.terms id).map (·.amountUsdt)).getD 0 ≤
      ((b.terms id).map fun q => q.amountRub - q.commission).getD 0 := by
    intro id hid
    obtain ⟨t, ht, rfl⟩ := hrow id hid
    rw [hvalue t ht]
    exact hfunded t ht
  have hpos : ∀ id ∈ b.received, 0 ≤ rate * ((b.terms id).map (·.amountUsdt)).getD 0 := by
    intro id hid
    obtain ⟨t, ht, rfl⟩ := hrow id hid
    rw [hvalue t ht]
    exact mul_nonneg hrate (amountUsdt_pos t).le
  calc rate * paidOut w.shared.ext
      = (b.released.map fun id => rate * ((b.terms id).map (·.amountUsdt)).getD 0).sum := by
        rw [hb.paidOut_eq hi, List.sum_map_mul_left]
    _ ≤ (b.received.map fun id =>
          ((b.terms id).map fun q => q.amountRub - q.commission).getD 0).sum :=
        hkept.sum_released_le (fun id hid => hcost id (hkept.covered id hid))
          fun id hid => (hpos id hid).trans (hcost id hid)
    _ = ((w.shared.db.received.map (·.id)).map fun id =>
          ((b.terms id).map fun q => q.amountRub - q.commission).getD 0).sum :=
        ((hb.received_perm hkept).map _).sum_eq
    _ = takenIn w.shared.db := by
        rw [List.map_map, takenIn]
        refine congrArg List.sum (List.map_congr_left fun t ht => ?_)
        rw [Function.comp_apply, hvalue t (List.mem_filter.mp ht).1]
        rfl

end

theorem places_rate : depositSettings.rubUsdtRate.Places 8 ∧
    95 ≤ depositSettings.rubUsdtRate.value := by
  have hvalue : depositSettings.rubUsdtRate.value = 95 := value_ofNat 95
  refine ⟨⟨95 * 10 ^ 8, ?_⟩, hvalue.ge⟩
  show depositSettings.rubUsdtRate.value = _
  rw [hvalue]
  norm_num

/-- After a payout that was sent twice, 50 USDT are covered by the 4750 roubles that are left of
the deposit. -/
theorem payouts_covered_sent_twice : ∃ tr w, Run (bank .ascii) launch tr w ∧
    w.shared.ext.accepted = [payout] ∧ 95 * paidOut w.shared.ext ≤ takenIn w.shared.db := by
  obtain ⟨tr, w, hr, hactions, hw⟩ := Run.exists_of_trace (bank .ascii) launch
    sentTwice (fun r => r.2.shared.ext.accepted) (b := [payout]) (by decide)
  refine ⟨tr, w, hr, hw, payouts_covered opening_launch hr (by norm_num)
    (Contract.Starts.of_actions hactions ?_)⟩
  have hjobs : ∀ a ∈ sentTwice, ∀ j ∈ a.job?, j.Together := by decide
  refine fun a ha j hj => ⟨hjobs a ha j hj, ?_⟩
  have hdeposits : sentTwice.filterMap Action.job? =
    [.createDeposit depositSettings aliceDeposit, .sbpPaymentWebhook alicePayment 0,
      .processTransfer worker, .processTransfer worker] := rfl
  have hmem := List.mem_filterMap.mpr ⟨a, ha, hj⟩
  rw [hdeposits] at hmem
  simp only [List.mem_cons, List.not_mem_nil, or_false] at hmem
  rcases hmem with rfl | rfl | rfl | rfl
  · exact places_rate
  all_goals trivial

end MoneyWay
