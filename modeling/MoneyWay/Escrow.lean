import MoneyWay.Coherence
import MoneyWay.DepositLimits
import MoneyWay.Library.Escrow

/-!
# Deposits as escrow

What can be seen of a history from outside: the quotes that are answered, the payment and
chargeback webhooks that take effect, and what BingX accepts. In every history of whole
transactions this is a run of the escrow machine: workers that are rolled back, tasks that are
sent twice, holds, resets and redelivered webhooks are not seen at all.

## Main definitions

- `observe` — what is seen of a transition
- `Standing` — what the tables say of a deposit
- `Reflects` — the book of the machine that goes with a state of the system

## Main results

- `histories_refine_escrow` — every history is a run of the escrow machine
-/

set_option autoImplicit false

namespace MoneyWay

open Keyed ReadCommitted Python Sql Escrow

/-! ## What is seen -/

/-- What a deposit costs, what is kept of it, and what it gives. -/
structure Terms where
  amountRub : ℚ
  commission : ℚ
  amountUsdt : ℚ

def Transaction.terms (t : Transaction) : Terms :=
  ⟨t.amountRub.toDecimal.value, t.commission.toDecimal.value, t.amountUsdt.toDecimal.value⟩

def DepositCreateResponse.terms (r : DepositCreateResponse) : Terms :=
  ⟨r.amountRub.value, r.commission.value, r.amountUsdt.value⟩

abbrev DepositEvent := Escrow.Event String Terms ℚ ℚ

/-- The transaction a key was made for. -/
def transactionOf (key : String) : String :=
  String.ofList (key.toList.drop "bingx-transfer:".toList.length)

theorem transactionOf_idempotencyKey (id : String) : transactionOf (idempotencyKey id) = id := by
  simp only [transactionOf, idempotencyKey, String.toList_append, List.drop_left,
    String.ofList_toList]

/-- The transaction a job is about. -/
def subject : Job → Result → Option String
  | .createDeposit _ _, .deposit d => some d.transactionId
  | .sbpPaymentWebhook p _, _ => some p.transactionId
  | .sbpChargebackWebhook p, _ => some p.transactionId
  | _, _ => none

/-- What is seen of a job that has found its transaction in one status and left it in
another: nothing, unless it has moved it. -/
def shown : Job → Result → Option TransactionStatus → Option TransactionStatus →
    Option DepositEvent
  | .createDeposit _ _, .deposit d, none, some .pending => some (.offer d.transactionId d.terms)
  | .sbpPaymentWebhook p _, _, some .pending, some .paid =>
    p.amountRub.map fun a => .receive p.transactionId a.value
  | .sbpPaymentWebhook p _, _, some .pending, some .failed => some (.refuse p.transactionId)
  | .sbpChargebackWebhook p, _, before, some .chargeback =>
    if before = some .chargeback then none else some (.reverse p.transactionId)
  | _, _, _, _ => none

def statusAt (w : World signature) (id : String) : Option TransactionStatus :=
  (w.shared.db.transactions.find? id).map (·.status)

/-- What is seen of a commit. -/
def shownAt (x : Transition signature) (j : Job) (v : Result) : Option DepositEvent :=
  (subject j v).bind fun id => shown j v (statusAt x.before id) (statusAt x.after id)

/-- What is seen of a transition. -/
def observe (x : Transition signature) : Option DepositEvent :=
  match x.action, x.commit? with
  | .event (.accept q), _ =>
    some (.release (transactionOf q.idempotencyKey) q.amountUsdt.toDecimal.value)
  | _, some ⟨_, j, .done v, _⟩ => shownAt x j v
  | _, _ => none

theorem observe_of_commits {x : Transition signature} {s : Session signature} {v : Result}
    (h : x.Commits s v) : observe x = shownAt x s.job v := by
  have hcommit := h.commit?
  obtain ⟨-, ha, hp⟩ := h
  obtain ⟨id, job, prog, txn⟩ := s
  obtain rfl : prog = .done v := hp
  simp only [observe, ha, hcommit]

theorem observe_eq_none {x : Transition signature} (h : ∀ s v, ¬ x.Commits s v)
    (ha : ∀ q, x.action ≠ .event (.accept q)) : observe x = none := by
  unfold observe
  rw [Transition.commit?_eq_none h]
  split
  · next q hq => exact absurd hq (ha q)
  · next hc _ => cases hc
  · rfl

/-! ## How a deposit stands -/

/-- What the tables say of a deposit: its terms, whether its payout has been scheduled, whether
its payment has failed, and whether it has been charged back. -/
structure Standing where
  terms : Terms
  received : Bool
  refused : Bool
  reversed : Bool

def File.standing (f : File) : Standing where
  terms := f.transaction.terms
  received := f.transfer.isSome
  refused := decide (f.transaction.status = .failed) && f.transfer.isNone
  reversed := decide (f.transaction.status = .chargeback)

def standing (d : Database) (id : String) : Option Standing := (d.file id).map File.standing

/-- The book says of every deposit what the tables and BingX say. -/
structure Reflects (w : World signature) (b : Book String Terms) : Prop where
  terms : ∀ id, b.terms id = (standing w.shared.db id).map (·.terms)
  received : ∀ id, id ∈ b.received ↔ ∃ s ∈ standing w.shared.db id, s.received = true
  refused : ∀ id, id ∈ b.refused ↔ ∃ s ∈ standing w.shared.db id, s.refused = true
  reversed : ∀ id, id ∈ b.reversed ↔ ∃ s ∈ standing w.shared.db id, s.reversed = true
  released : w.shared.ext.accepted.map (·.idempotencyKey) = b.released.reverse.map idempotencyKey

theorem Reflects.congr {w w' : World signature} {b : Book String Terms} (h : Reflects w b)
    (hs : ∀ id, standing w'.shared.db id = standing w.shared.db id)
    (ha : w'.shared.ext.accepted = w.shared.ext.accepted) : Reflects w' b := by
  refine ⟨fun id => ?_, fun id => ?_, fun id => ?_, fun id => ?_, ?_⟩
  · rw [hs, h.terms]
  · rw [hs, h.received]
  · rw [hs, h.refused]
  · rw [hs, h.reversed]
  · rw [ha, h.released]

/-- What an event makes of the deposit it is about. -/
inductive Standing.Step (id : String) : Option Standing → DepositEvent → Option Standing → Prop
  | offer {q : Terms} : Step id none (.offer id q) (some ⟨q, false, false, false⟩)
  | receive {q : Terms} : Step id (some ⟨q, false, false, false⟩) (.receive id q.amountRub)
      (some ⟨q, true, false, false⟩)
  | refuse {q : Terms} : Step id (some ⟨q, false, false, false⟩) (.refuse id)
      (some ⟨q, false, true, false⟩)
  | reverse {q : Terms} : Step id (some ⟨q, true, false, false⟩) (.reverse id)
      (some ⟨q, true, false, true⟩)

/-- The step of the machine that goes with an event. -/
theorem Reflects.turn {w w' : World signature} {b : Book String Terms} (h : Reflects w b)
    {id : String} {e : DepositEvent}
    (hturn : Standing.Step id (standing w.shared.db id) e (standing w'.shared.db id))
    (hs : ∀ i, i ≠ id → standing w'.shared.db i = standing w.shared.db i)
    (ha : w'.shared.ext.accepted = w.shared.ext.accepted) :
    ∃ b', Step Terms.amountRub Terms.amountUsdt b e b' ∧ Reflects w' b' := by
  have hterms := h.terms id
  have hreceived := h.received id
  have hrefused := h.refused id
  have hreversed := h.reversed id
  have hreleased : w'.shared.ext.accepted.map (·.idempotencyKey) =
      b.released.reverse.map idempotencyKey := by rw [ha, h.released]
  generalize hbefore : standing w.shared.db id = before at hturn hterms hreceived hrefused hreversed
  generalize hafter : standing w'.shared.db id = after at hturn
  have hother (p : Standing → Prop) (l : List String)
      (hl : ∀ i, i ∈ l ↔ ∃ s ∈ standing w.shared.db i, p s)
      (hsame : (∃ s ∈ after, p s) ↔ ∃ s ∈ before, p s) (i : String) :
      i ∈ l ↔ ∃ s ∈ standing w'.shared.db i, p s := by
    by_cases hi : i = id
    · rw [hi, hl, hafter, hbefore, hsame]
    · rw [hl, hs i hi]
  have hadded (p : Standing → Prop) (l : List String)
      (hl : ∀ i, i ∈ l ↔ ∃ s ∈ standing w.shared.db i, p s)
      (hnew : ∃ s ∈ after, p s) (i : String) :
      i ∈ id :: l ↔ ∃ s ∈ standing w'.shared.db i, p s := by
    by_cases hi : i = id
    · rw [hi, hafter]
      exact iff_of_true List.mem_cons_self hnew
    · rw [List.mem_cons, or_iff_right hi, hl, hs i hi]
  have hquotes (hsame : after.map (·.terms) = before.map (·.terms)) (i : String) :
      b.terms i = (standing w'.shared.db i).map (·.terms) := by
    by_cases hi : i = id
    · rw [hi, hafter, hsame, ← hterms]
    · rw [h.terms, hs i hi]
  cases hturn with
  | @offer q =>
    refine ⟨_, .offer (by simpa using hterms), fun i => ?_, hother _ _ h.received (by simp),
      hother _ _ h.refused (by simp), hother _ _ h.reversed (by simp), hreleased⟩
    by_cases hi : i = id
    · rw [hi, hafter]
      exact Function.update_self _ _ _
    · rw [hs i hi, ← h.terms]
      exact Function.update_of_ne hi _ _
  | @receive q =>
    refine ⟨_, .receive hterms (by simp [hreceived]) (by simp [hrefused]), hquotes rfl,
      hadded _ _ h.received (by simp), hother _ _ h.refused (by simp),
      hother _ _ h.reversed (by simp), hreleased⟩
  | @refuse q =>
    refine ⟨_, .refuse hterms (by simp [hreceived]) (by simp [hrefused]), hquotes rfl,
      hother _ _ h.received (by simp), hadded _ _ h.refused (by simp),
      hother _ _ h.reversed (by simp), hreleased⟩
  | @reverse q =>
    refine ⟨_, .reverse (by simp [hreceived]) (by simp [hreversed]), hquotes rfl,
      hother _ _ h.received (by simp), hother _ _ h.refused (by simp),
      hadded _ _ h.reversed (by simp), hreleased⟩

/-! ## One commit -/

/-- The commission has the two places of its column. -/
theorem exponent_commission {amountRub discountPercent commission amountUsdt : Decimal}
    {settings : Settings}
    (h : calculateDepositAmounts amountRub settings discountPercent =
      .ok (commission, amountUsdt)) :
    commission.exponent = -2 := by
  unfold calculateDepositAmounts at h
  iterate 5 obtain ⟨_, -, h⟩ := exists_of_bind_eq_ok h
  obtain ⟨c, hc, h⟩ := exists_of_bind_eq_ok h
  iterate 3 obtain ⟨_, -, h⟩ := exists_of_bind_eq_ok h
  cases h
  exact Decimal.Context.exponent_quantize hc (by decide)

/-- The terms are stored as they were answered. -/
theorem terms_of_storedAs {settings : Settings} {r : DepositCreateRequest}
    {promoCodeId : Option String} {discount commission amountUsdt : Decimal} {id : String}
    {now : Timestamp} {t : Transaction}
    (hquote : calculateDepositAmounts r.amountRub settings discount = .ok (commission, amountUsdt))
    (ht : StoredAs (newTransaction r id promoCodeId commission amountUsdt now) t) :
    t.terms = DepositCreateResponse.terms
      ⟨id, .pending, r.amountRub, amountUsdt, commission, none⟩ := by
  have hrub : t.amountRub.toDecimal.value = r.amountRub.value := by
    obtain ⟨k, hk, hk', hvalue⟩ := r.exists_kopecks
    have hstored : toNumeric 18 2 r.amountRub = some t.amountRub := ht.amountRub
    rw [toNumeric_eq (s := 2) hvalue hk.le, if_pos (by omega)] at hstored
    rw [← Option.some.inj hstored, hvalue]
    exact Decimal.value_ofUnits k _
  have hcommission := sameValue_of_toNumeric ht.commission (exponent_commission hquote)
  have husdt := sameValue_of_toNumeric ht.amountUsdt (exponent_amountUsdt hquote)
  rw [Decimal.sameValue_iff_value] at hcommission husdt
  simp only [Transaction.terms, DepositCreateResponse.terms, hrub, Terms.mk.injEq, true_and]
  exact ⟨hcommission, husdt⟩

theorem shown_self (j : Job) (v : Result) (o : Option TransactionStatus) :
    shown j v o o = none := by
  unfold shown
  split <;> simp_all

section

variable {unicode : Unicode} {x : Txn signature} {s : Shared signature} {id : String} {j : Job}
  {v : Result} {f f' : Option File}

/-- A deposit that can be charged back has been paid for. -/
theorem turn_of_eligible {p : SBPChargebackWebhook} {t : Transaction} {m m' : Option BingxTransfer}
    {k : Option KycRecord} {held : Prop} {now : Timestamp}
    (ht : t.status ∈ chargebackEligibleStatuses) (hf : File.Agrees heldStatuses held ⟨t, m, k⟩)
    (hm : m'.isSome = m.isSome) :
    shown (.sbpChargebackWebhook p) v (some t.status) (some (t.dispute now).status) =
        some (.reverse p.transactionId) ∧
      Standing.Step p.transactionId (some (File.standing ⟨t, m, k⟩)) (.reverse p.transactionId)
        (some (File.standing ⟨t.dispute now, m', k⟩)) := by
  obtain ⟨y, k, rfl, rfl, -⟩ := hf.of_eligible ht
  have hcharged : t.status ≠ .chargeback := by
    rintro he
    simp [he, chargebackEligibleStatuses] at ht
  constructor
  · simp only [shown, Transaction.dispute, Option.some.injEq, hcharged, if_false]
  · have hterms : (t.dispute now).terms = t.terms := rfl
    have hstatus : (t.dispute now).status = .chargeback := rfl
    have hbefore : File.standing ⟨t, some y, some k⟩ = ⟨t.terms, true, false, false⟩ := by
      simp [File.standing, hcharged]
    have hafter : File.standing ⟨t.dispute now, m', some k⟩ = ⟨t.terms, true, false, true⟩ := by
      simp [File.standing, hm, hterms, hstatus]
    rw [hbefore, hafter]
    exact .reverse

/-- A worker changes no terms, and takes nothing back. -/
theorem standing_of_updated {y y' : BingxTransfer} {now : Timestamp} {route : Route}
    {set : Option (Transaction → Transaction)} {t t' : Transaction}
    (hset : Settled y now route y' set) (hupdated : Updated x y t set t') :
    t'.terms = t.terms ∧ (t'.status = .chargeback ↔ t.status = .chargeback) := by
  cases hupdated with
  | none => exact ⟨rfl, .rfl⟩
  | skipped => exact ⟨rfl, .rfl⟩
  | paid hpaid =>
    cases hset <;>
      simp [Transaction.terms, Transaction.complete, Transaction.fail, Transaction.escalate, hpaid]

/-- What a commit makes of a file is not seen, or is the event that is seen. -/
theorem FileStep.turn {held : Prop} (h : FileStep unicode x s id j v f f')
    (hf : ∀ g ∈ f, File.Agrees heldStatuses held g) :
    f'.map File.standing = f.map File.standing ∧
        shown j v (f.map (·.transaction.status)) (f'.map (·.transaction.status)) = none ∨
      subject j v = some id ∧ ∃ e,
        shown j v (f.map (·.transaction.status)) (f'.map (·.transaction.status)) = some e ∧
        Standing.Step id (f.map File.standing) e (f'.map File.standing) := by
  cases h with
  | kept => exact .inl ⟨rfl, shown_self _ _ _⟩
  | created hquote hstored =>
    have hterms := terms_of_storedAs hquote hstored
    refine .inr ⟨rfl, _, by simp only [Option.map, hstored.status]; rfl, ?_⟩
    simp only [Option.map, File.standing, hterms, hstored.status]
    exact .offer
  | rejected hid hp hst =>
    subst hid
    refine .inr ⟨rfl, _, by simp only [Option.map, hst, Transaction.reject]; rfl, ?_⟩
    simp only [Option.map, File.standing, hst, Transaction.reject]
    exact .refuse
  | @paid p _ _ t amountRub _ _ _ _ _ _ hid hp hst ha hsame =>
    subst hid
    have hvalue : amountRub.value = t.terms.amountRub := Decimal.sameValue_iff_value.mp hsame
    refine .inr ⟨rfl, .receive p.transactionId amountRub.value, ?_, ?_⟩
    · simp only [Option.map, hst, Transaction.pay, shown, ha]
    · rw [hvalue]
      simp only [Option.map, File.standing, hst, Transaction.pay]
      exact .receive
  | cancelled hid ht =>
    subst hid
    exact .inr ⟨rfl, _, turn_of_eligible ht (hf _ rfl) rfl⟩
  | disputed hid ht =>
    subst hid
    exact .inr ⟨rfl, _, turn_of_eligible ht (hf _ rfl) rfl⟩
  | @recorded _ y y' _ _ _ t t' _ _ _ _ hset hupdated =>
    refine .inl ⟨?_, by simp [shown]⟩
    obtain ⟨hterms, hcharged⟩ := standing_of_updated hset hupdated
    simp only [Option.map, File.standing, hterms, hcharged, Option.isSome_some, Option.isNone_some,
      Bool.and_false]
  | reset =>
    exact .inl ⟨rfl, rfl⟩

end

theorem statusAt_eq (w : World signature) (id : String) :
    statusAt w id = (w.shared.db.file id).map (·.transaction.status) := by
  simp only [statusAt, Database.file, Option.map_map]
  rfl

/-! ## Every history -/

/-- What BingX has accepted only changes by what happens there. -/
theorem accepted_step {unicode : Unicode} {w w' : World signature} {a : Action signature}
    (h : w.step (bank unicode) a = some w') (ha : ∀ q, a ≠ .event (.accept q)) :
    w'.shared.ext.accepted = w.shared.ext.accepted := by
  cases World.stepTo h with
  | start | give | answer | rollback => rfl
  | @run s sh t hs hr =>
    have hadv := Session.advances hr
    have hshared : (w.settle s.id sh t).shared = sh := by cases t <;> rfl
    rw [hshared]
    cases hadv <;> rfl
  | @event e y hy =>
    cases e with
    | accept q => exact absurd rfl (ha q)
    | drop q =>
      have hdrop : w.shared.ext.event (.drop q) = some y := hy
      simp only [Bingx.event] at hdrop
      split at hdrop
      · cases hdrop
        rfl
      · cases hdrop
    | tick delta =>
      have htick : w.shared.ext.event (.tick delta) = some y := hy
      cases htick
      rfl

section

variable {unicode : Unicode} {start : Shared signature} {tr : List (Transition signature)}
  {w w' : World signature} {b : Book String Terms}

/-- An accepted request is a payout of the machine. -/
theorem Reflects.accept {q : TransferRequest} (h : Reflects w b) (hi : Inv w.shared)
    (hs : w.step (bank unicode) (.event (.accept q)) = some w') :
    ∃ b', Step Terms.amountRub Terms.amountUsdt b
      (.release (transactionOf q.idempotencyKey) q.amountUsdt.toDecimal.value) b' ∧
      Reflects w' b' := by
  obtain ⟨y, hy, rfl⟩ := Option.map_eq_some_iff.mp hs
  have hevent : w.shared.ext.event (.accept q) = some y := hy
  simp only [Bingx.event] at hevent
  split at hevent
  · next hwire =>
    cases hevent
    obtain ⟨x, hx, rfl⟩ := hi.ledger.wire q hwire.1
    obtain ⟨t, ht, hne, hfile⟩ := Database.file_of_transfer hi.sound hx
    obtain ⟨t', ht', -, hpays⟩ := hi.sound.owner x hx
    rw [ht] at ht'
    cases ht'
    have hkey : x.request.idempotencyKey = idempotencyKey x.transactionId :=
      hi.sound.idempotencyKey_eq hx
    have hstanding : standing w.shared.db x.transactionId =
        some (File.standing ⟨t, some x, w.shared.db.kycRecords.find? x.transactionId⟩) := by
      rw [standing, hfile, Option.map_some]
    have hterms : b.terms x.transactionId = some t.terms := by
      rw [h.terms, hstanding]
      rfl
    have hdue : x.request.amountUsdt.toDecimal.value = t.terms.amountUsdt := by
      have hamount : x.request.amountUsdt = t.amountUsdt := hpays.amountUsdt
      rw [hamount]
      rfl
    have hin : x.transactionId ∈ b.received := by
      rw [h.received, hstanding]
      exact ⟨_, rfl, rfl⟩
    have hnew : x.transactionId ∉ b.released := by
      intro hmem
      have hold : idempotencyKey x.transactionId ∈
          w.shared.ext.accepted.map (·.idempotencyKey) := by
        rw [h.released]
        exact List.mem_map_of_mem (List.mem_reverse.mpr hmem)
      obtain ⟨r, hr, hrkey⟩ := List.mem_map.mp hold
      exact hwire.2 r hr (hrkey.trans hkey.symm)
    rw [hkey, transactionOf_idempotencyKey, hdue]
    refine ⟨_, .release hterms hin hnew, h.terms, h.received, h.refused, h.reversed, ?_⟩
    simp only [List.map_append, List.map_cons, List.map_nil, List.reverse_cons, h.released, hkey]
  · cases hevent

/-- The step lemma: a transition is not seen, or is a step of the machine. -/
theorem Reflects.transition {a : Action signature} (h : Reflects w b)
    (hs : w.step (bank unicode) a = some w') (hinv : (agreeing unicode).inv w.shared)
    (hchange : (agreeing unicode).Change (bank unicode) Job.Together ⟨w, a, w'⟩) :
    (escrow String Terms.amountRub Terms.amountUsdt).Matches Reflects observe ⟨w, a, w'⟩ b := by
  by_cases ha : ∃ q, a = .event (.accept q)
  · obtain ⟨q, rfl⟩ := ha
    obtain ⟨b', hstep, hR⟩ := h.accept hinv.1 hs
    exact .inr ⟨_, b', rfl, hstep, hR⟩
  have ha : ∀ q, a ≠ .event (.accept q) := fun q he => ha ⟨q, he⟩
  have haccepted := accepted_step hs ha
  have hchanges := file_change rfl agreeing_inv hinv hchange
  by_cases hcommit : ∃ s v, Transition.Commits ⟨w, a, w'⟩ s v
  · obtain ⟨s, v, hc⟩ := hcommit
    have hstep (id : String) : FileStep unicode s.txn w.shared id s.job v (w.shared.db.file id)
        (w'.shared.db.file id) := by
      rcases hchanges id with ⟨hne, -⟩ | ⟨s', v', hc', -, -, hstep⟩
      · exact absurd hc (hne s v)
      · obtain rfl := hc.eq_of_run hc'.1 hc'.2.1
        cases hc.2.2.symm.trans hc'.2.2
        exact hstep
    have hturn (id : String) := (hstep id).turn (fun g hg => hinv.2 id g hg)
    have hobserve : observe ⟨w, a, w'⟩ = shownAt ⟨w, a, w'⟩ s.job v := observe_of_commits hc
    have hother {id : String} (hid : subject s.job v ≠ some id) :
        standing w'.shared.db id = standing w.shared.db id := by
      rcases hturn id with ⟨hsame, -⟩ | ⟨hsubject, -⟩
      · exact hsame
      · exact absurd hsubject hid
    cases hsubject : subject s.job v with
    | none =>
      refine .inl ⟨?_, h.congr (fun id => hother (by simp [hsubject])) haccepted⟩
      rw [hobserve, shownAt, hsubject, Option.bind_none]
    | some id =>
      have hshown : observe ⟨w, a, w'⟩ =
          shown s.job v ((w.shared.db.file id).map (·.transaction.status))
            ((w'.shared.db.file id).map (·.transaction.status)) := by
        rw [hobserve, shownAt, hsubject, Option.bind_some, statusAt_eq, statusAt_eq]
      have hrest (i : String) (hi : i ≠ id) : standing w'.shared.db i = standing w.shared.db i :=
        hother (by simpa [hsubject] using Ne.symm hi)
      rcases hturn id with ⟨hsame, hnone⟩ | ⟨-, e, he, hturn⟩
      · refine .inl ⟨hshown.trans hnone, h.congr (fun i => ?_) haccepted⟩
        by_cases hi : i = id
        · subst hi
          exact hsame
        · exact hrest i hi
      · obtain ⟨b', hs', hR⟩ := h.turn hturn hrest haccepted
        exact .inr ⟨e, b', hshown.trans he, hs', hR⟩
  · have hnone : ∀ s v, ¬ Transition.Commits ⟨w, a, w'⟩ s v := fun s v hc => hcommit ⟨s, v, hc⟩
    refine .inl ⟨observe_eq_none hnone ha, h.congr (fun id => ?_) haccepted⟩
    rcases hchanges id with ⟨-, he⟩ | ⟨s, v, hc, -⟩
    · rw [standing, standing, he]
    · exact absurd hc (hnone s v)

/-- Every history is a run of the escrow machine, and ends in the book of its tables. -/
theorem histories_refine_escrow (hs : Opening start) (hr : Run (bank unicode) start tr w)
    (hj : Contract.Starts Job.Together tr) :
    ∃ b, (escrow String Terms.amountRub Terms.amountUsdt).Run (tr.filterMap observe) b ∧
      Reflects w b := by
  refine (agreeing_valid unicode).refines ⟨hs.inv, hs.agreed⟩ ?_ ?_ hr hj
  · have hnone (id : String) : standing (World.idle start).shared.db id = none := by
      rw [standing, Option.map_eq_none_iff, Database.file_eq_none, Table.find?_eq_none]
      simp [World.idle, hs.transactions]
    refine ⟨fun id => ?_, fun id => ?_, fun id => ?_, fun id => ?_, ?_⟩
    · rw [hnone]
      rfl
    · rw [hnone]
      simp [escrow]
    · rw [hnone]
      simp [escrow]
    · rw [hnone]
      simp [escrow]
    · simp [World.idle, hs.accepted, escrow]
  · intro tr w a w' b _ hstep hsafe _ hchange hR
    exact hR.transition hstep hsafe.inv hchange

end

/-- BingX accepts the payout, the worker is rolled back, and another one sends it again. -/
def sentTwice : List (Action signature) :=
  paidDeposit ++ sendPayout 0 ++ .event (.accept payout) :: .rollback 0 :: sendPayout 1

/-- In the book a payout that was sent twice has been released once. -/
theorem histories_refine_escrow_sent_twice : ∃ tr w b, Run (bank .ascii) launch tr w ∧
    w.shared.ext.wire = [payout] ∧
    (escrow String Terms.amountRub Terms.amountUsdt).Run (tr.filterMap observe) b ∧
    b.released = ["deposit"] := by
  obtain ⟨tr, w, hr, hactions, hw⟩ := Run.exists_of_trace (bank .ascii) launch
    sentTwice (fun r => (r.2.shared.ext.accepted, r.2.shared.ext.wire)) (b := ([payout], [payout]))
    (by decide)
  obtain ⟨haccepted, hwire⟩ :
      w.shared.ext.accepted = [payout] ∧ w.shared.ext.wire = [payout] := Prod.mk.inj hw
  have hj : Contract.Starts Job.Together tr := Contract.Starts.of_actions hactions (by decide)
  obtain ⟨b, hrun, hb⟩ := histories_refine_escrow opening_launch hr hj
  refine ⟨tr, w, b, hr, hwire, hrun, ?_⟩
  have hkeys := congrArg (List.map transactionOf) hb.released
  simp only [haccepted, List.map_map, Function.comp_def, transactionOf_idempotencyKey,
    List.map_id'] at hkeys
  rw [← List.reverse_reverse b.released, ← hkeys]
  decide

end MoneyWay
