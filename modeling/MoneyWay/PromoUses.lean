import MoneyWay.PromoCounts

/-!
# The uses of promo codes

In every history the use count of a promo code is what deposits have reserved less what
webhooks have released, each transaction reserves once and releases at most once, and
only a limit that was lowered is exceeded.
-/

set_option autoImplicit false

namespace MoneyWay

open Keyed ReadCommitted Python Sql

/-! ## Every history -/

/-- The contract `payments` with covered uses in the invariant. -/
def counting (unicode : Unicode) : Contract signature :=
  { payments unicode with inv := fun s => Inv s ∧ Backed s.db }

theorem counting_inv {unicode : Unicode} (s : Shared signature) (h : (counting unicode).inv s) :
    Inv s := h.1

theorem backed_of_past {unicode : Unicode} {x : Txn signature} {s : Shared signature}
    (h : (counting unicode).Past x s) : ∀ q ∈ x.snapshots, Backed q.db :=
  fun q hq => (h q hq).1.2

theorem Outcome.backed {unicode : Unicode} {j : Job} {v : Result} {x : Txn signature}
    {s : Shared signature} (h : Outcome unicode j v x s) (hseen : ∀ q ∈ x.snapshots, Backed q.db)
    (hs : Backed s.db) : Backed (replay x.pending s.db) := by
  obtain ⟨hpromo, htx⟩ := Database.replay_counted (d := s.db) x.pending
  have hb := h.counts.backed hseen hs
  refine ⟨fun t ht id hid => ?_, fun id p hp => ?_⟩
  · rw [hpromo]
    exact hb.stored t (htx ▸ ht) id hid
  · rw [hpromo] at hp
    have hused := hb.used id p hp
    unfold Database.holders at hused ⊢
    rwa [htx]

theorem counting_valid (unicode : Unicode) :
    (counting unicode).Valid (bank unicode) Job.Together :=
  (together_valid unicode).strengthen (fun _ h => h) (fun _ _ h => h)
    fun _ _ _ _ _ _ hb hpast ho => ho.backed (backed_of_past hpast) hb

/-- The transactions with promo code `id` for which a transition makes a change. -/
def changesIn (c : UseChange) (id : String) (x : Transition signature) : List String :=
  x.commit?.elim [] fun s => changes c id s.job s.txn.pending

/-- The same for a history, the last one first. -/
def changesOf (c : UseChange) (id : String) (tr : List (Transition signature)) : List String :=
  tr.flatMap (changesIn c id)

/-- What a transition does to a promo code and to the transactions with it. -/
structure Turn (x : Transition signature) (id : String) (p p' : PromoCode) : Prop where
  found : x.after.shared.db.promoCodes.find? id = some p'
  used : p'.usedCount + (changesIn .release id x).length =
    p.usedCount + (changesIn .reserve id x).length
  holders : x.after.shared.db.holders id + (changesIn .release id x).length +
    (changesIn .keep id x).length = x.before.shared.db.holders id + (changesIn .reserve id x).length
  limit : p'.usedCount ≤ p.usedCount ∨ ∀ m ∈ p'.maxUses, (p'.usedCount : ℤ) ≤ m
  transactions : x.after.shared.db.transactions = x.before.shared.db.transactions ∧
      (∀ c, changesIn c id x = []) ∨
    ∃ j t', x.after.shared.db.transactions = x.before.shared.db.transactions.put t' ∧
      (∀ c, changesIn c id x =
        if t'.promoCodeId = some id ∧ useChange j t' = some c then [t'.id] else []) ∧
      WrittenBy j x.before.shared.db t'

section

variable {unicode : Unicode} {start : Shared signature} {tr : List (Transition signature)}
  {w : World signature}

theorem Opening.backed (hs : Opening start) : Backed start.db :=
  ⟨by simp [hs.transactions], by simp [Database.holders, hs.transactions]⟩

/-- The step lemma for transitions. -/
theorem turn_of_change {x : Transition signature}
    (h : (counting unicode).Change (bank unicode) Job.Together x) {id : String} {p : PromoCode}
    (hp : x.before.shared.db.promoCodes.find? id = some p) : ∃ p', Turn x id p p' := by
  rcases h.together fun _ hj => hj with ⟨hne, he⟩ | ⟨s, v, hc, -, ho, hpast, he⟩
  · have hnone (c : UseChange) : changesIn c id x = [] := by
      rw [changesIn, Transition.commit?_eq_none hne]
      rfl
    exact ⟨p, by rw [he, hp], by simp [hnone], by simp [hnone, he], .inl le_rfl,
      .inl ⟨by rw [he], hnone⟩⟩
  · have hseen := backed_of_past hpast
    have hcounts : Counts unicode s.txn x.before.shared s.job _ := Outcome.counts ho
    obtain ⟨hpromo, htx⟩ := Database.replay_counted (d := x.before.shared.db) s.txn.pending
    have hchanges (c : UseChange) : changesIn c id x =
        changes c id s.job (s.txn.pending.filter Write.counted) := by
      rw [changes_counted, changesIn, hc.commit?]
      rfl
    obtain ⟨p', hp'⟩ := hcounts.accounted hseen hp
    refine ⟨p', by rw [he, hpromo, hp'.found], ?_, ?_, hp'.limit, ?_⟩
    · rw [hchanges, hchanges]
      exact hp'.used
    · have hholders := hp'.holders
      rw [hchanges, hchanges, hchanges, he]
      unfold Database.holders at hholders ⊢
      rwa [htx]
    · rw [he, htx]
      rcases hcounts.transactions hseen with ⟨hsame, hnone⟩ | ⟨t', hput, hone, hwritten⟩
      · refine .inl ⟨hsame, fun c => ?_⟩
        rw [hchanges, changes, hnone]
        rfl
      · refine .inr ⟨s.job, t', hput, fun c => ?_, hwritten⟩
        rw [hchanges, changes_eq hone]

theorem changesOf_cons (c : UseChange) (id : String) (x : Transition signature)
    (tr : List (Transition signature)) :
    changesOf c id (x :: tr) = changesIn c id x ++ changesOf c id tr := List.flatMap_cons

/-- What a history says of the deposits with a promo code. -/
structure Listed (tr : List (Transition signature)) (d : Database) (id : String) : Prop where
  deposits : ∀ tid, tid ∈ changesOf .reserve id tr ↔
    ∃ t, d.transactions.find? tid = some t ∧ t.promoCodeId = some id
  reservedOnce : (changesOf .reserve id tr).Nodup
  released : ∀ tid ∈ changesOf .release id tr,
    ∃ t, d.transactions.find? tid = some t ∧ t.status.Absorbing
  releasedOnce : (changesOf .release id tr).Nodup

/-- One more transition. -/
theorem Listed.turn {x : Transition signature} {id : String} {p p' : PromoCode}
    (h : Listed tr x.before.shared.db id) (hx : Turn x id p p') :
    Listed (x :: tr) x.after.shared.db id := by
  suffices hnow : (∀ tid, tid ∈ changesIn .reserve id x ++ changesOf .reserve id tr ↔
        ∃ t, x.after.shared.db.transactions.find? tid = some t ∧ t.promoCodeId = some id) ∧
      (changesIn .reserve id x ++ changesOf .reserve id tr).Nodup ∧
      (∀ tid ∈ changesIn .release id x ++ changesOf .release id tr,
        ∃ t, x.after.shared.db.transactions.find? tid = some t ∧ t.status.Absorbing) ∧
      (changesIn .release id x ++ changesOf .release id tr).Nodup by
    simp only [← changesOf_cons] at hnow
    exact ⟨hnow.1, hnow.2.1, hnow.2.2.1, hnow.2.2.2⟩
  rcases hx.transactions with ⟨hsame, hnone⟩ | ⟨j, t', hput, hchange, hwritten⟩
  · simp only [hnone, hsame, List.nil_append]
    exact ⟨h.deposits, h.reservedOnce, h.released, h.releasedOnce⟩
  rw [hput, hchange, hchange]
  have hfind (tid : String) := Table.find?_put x.before.shared.db.transactions t' tid
  -- what has been released is not written again
  have hkeep : ∀ tid ∈ changesOf .release id tr, t'.id ≠ tid := by
    rintro tid hmem rfl
    obtain ⟨u, hu, hdead⟩ := h.released _ hmem
    rcases hwritten with ⟨t, ht, -, hlive, -⟩ | ⟨hfresh, -⟩
    · rw [hu] at ht
      cases ht
      exact hlive hdead
    · rw [hu] at hfresh
      cases hfresh
  have hreleased : ∀ tid ∈ changesOf .release id tr,
      ∃ t, (x.before.shared.db.transactions.put t').find? tid = some t ∧ t.status.Absorbing := by
    intro tid hmem
    rw [hfind, if_neg (hkeep tid hmem)]
    exact h.released tid hmem
  rcases hwritten with ⟨t, ht, hcode, hlive, hkind⟩ | ⟨hfresh, hreserve, -⟩
  · have hnot : useChange j t' ≠ some .reserve := by
      rcases hkind with ⟨hc, -⟩ | ⟨hc | hc, -⟩ <;> simp [hc]
    have hdead : useChange j t' = some .release → t'.status.Absorbing := by
      intro hc
      rcases hkind with ⟨hnone, -⟩ | ⟨-, hdead⟩
      · rw [hnone] at hc
        cases hc
      · exact hdead
    rw [if_neg (fun hc => hnot hc.2), List.nil_append]
    refine ⟨fun tid => ?_, h.reservedOnce, fun tid hmem => ?_, ?_⟩
    · rw [h.deposits, hfind]
      split
      · next he =>
        subst he
        simp [ht, hcode]
      · rfl
    · split at hmem
      · next hc =>
        rcases List.mem_append.mp hmem with hmem | hmem
        · obtain rfl := List.mem_singleton.mp hmem
          exact ⟨t', Table.find?_put_self _ _, hdead hc.2⟩
        · exact hreleased tid hmem
      · exact hreleased tid hmem
    · split
      · exact List.nodup_cons.mpr ⟨fun hmem => hkeep _ hmem rfl, h.releasedOnce⟩
      · exact h.releasedOnce
  · have hno : ¬ (t'.promoCodeId = some id ∧ useChange j t' = some .release) := by
      simp [hreserve]
    have hnew : t'.id ∉ changesOf .reserve id tr := by
      rw [h.deposits, hfresh]
      simp
    rw [if_neg hno, List.nil_append]
    refine ⟨fun tid => ?_, ?_, hreleased, h.releasedOnce⟩
    · rw [List.mem_append, h.deposits, hfind]
      by_cases hid : t'.id = tid
      · subst hid
        by_cases hc : t'.promoCodeId = some id <;> simp [hc, hreserve, hfresh]
      · by_cases hc : t'.promoCodeId = some id <;> simp [hc, hreserve, hid, Ne.symm hid]
    · split
      · exact List.nodup_cons.mpr ⟨hnew, h.reservedOnce⟩
      · exact h.reservedOnce

/-- What a history says of the use count of a promo code. -/
structure Account (tr : List (Transition signature)) (d : Database) (id : String) (p : PromoCode) :
    Prop where
  found : d.promoCodes.find? id = some p
  used : p.usedCount + (changesOf .release id tr).length = (changesOf .reserve id tr).length
  holders : d.holders id + (changesOf .keep id tr).length = p.usedCount
  listed : Listed tr d id

theorem Account.turn {x : Transition signature} {id : String} {p p' : PromoCode}
    (h : Account tr x.before.shared.db id p) (hx : Turn x id p p') :
    Account (x :: tr) x.after.shared.db id p' := by
  have hlen (c : UseChange) : (changesOf c id (x :: tr)).length =
      (changesIn c id x).length + (changesOf c id tr).length := by
    rw [changesOf_cons, List.length_append]
  have hused := h.used
  have hholders := h.holders
  have hused' := hx.used
  have hholders' := hx.holders
  exact ⟨hx.found, by rw [hlen, hlen]; omega, by rw [hlen]; omega, h.listed.turn hx⟩

/-- The run lemma. -/
theorem run_account (hs : Opening start) (hzero : ∀ p ∈ start.db.promoCodes.rows, p.usedCount = 0)
    (hr : Run (bank unicode) start tr w) (hj : Contract.Starts Job.Together tr) {id : String}
    {p₀ : PromoCode} (hp₀ : start.db.promoCodes.find? id = some p₀) :
    ∃ p, Account tr w.shared.db id p := by
  refine (counting_valid unicode).induction ⟨hs.inv, hs.backed⟩
    (motive := fun tr w => ∃ p, Account tr w.shared.db id p) ?_ ?_ hr hj
  · have hnone (tid : String) : start.db.transactions.find? tid = none := by
      rw [Table.find?_eq_none, hs.transactions]
      simp
    refine ⟨p₀, hp₀, ?_, ?_, fun tid => ?_, by simp [changesOf], by simp [changesOf],
      by simp [changesOf]⟩
    · simp [changesOf, hzero p₀ (Table.mem_of_find? hp₀)]
    · simp [changesOf, World.idle, Database.holders, hs.transactions,
        hzero p₀ (Table.mem_of_find? hp₀)]
    · simp [changesOf, World.idle, hnone]
  · rintro tr w a w' - - - hchange ⟨p, hp⟩
    obtain ⟨p', hturn⟩ := turn_of_change hchange hp.found
    exact ⟨p', hp.turn hturn⟩

/-- Every promo code was there at the start. -/
theorem run_promoCode (hs : Opening start) (hr : Run (bank unicode) start tr w)
    (hj : Contract.Starts Job.Together tr) {id : String} {p : PromoCode}
    (hp : w.shared.db.promoCodes.find? id = some p) :
    ∃ p₀, start.db.promoCodes.find? id = some p₀ := by
  refine (counting_valid unicode).induction ⟨hs.inv, hs.backed⟩
    (motive := fun _ w => ∀ p, w.shared.db.promoCodes.find? id = some p →
      ∃ p₀, start.db.promoCodes.find? id = some p₀) (fun p hp => ⟨p, hp⟩) ?_ hr hj p hp
  rintro tr w a w' - - - hchange ih p hp
  rcases hchange.together fun _ hj => hj with ⟨-, he⟩ | ⟨s, v, -, -, ho, hpast, he⟩
  · exact ih p (he ▸ hp)
  · dsimp only at he
    rw [he, (Database.replay_counted s.txn.pending).1] at hp
    rcases Database.promoCode_replay hp with ⟨hw, rfl⟩ | ⟨p', hold⟩
    · obtain ⟨p', hp'⟩ := (@Outcome.counts unicode _ _ _ _ ho).promoCode (backed_of_past hpast) hw
      exact ih p' hp'
    · exact ih p' hold

/-- The limit of a promo code has become lower, or it has got one. -/
def PromoCode.Lowered (p p' : PromoCode) : Prop := ∃ m' ∈ p'.maxUses, ∀ m ∈ p.maxUses, m' < m

/-- No limit of a promo code is lowered. -/
def NeverLowered (tr : List (Transition signature)) : Prop :=
  ∀ x ∈ tr, ∀ id p p', x.before.shared.db.promoCodes.find? id = some p →
    x.after.shared.db.promoCodes.find? id = some p' → ¬ p.Lowered p'

/-- The uses of a promo code are within its limit, or there are none. -/
def PromoCode.Limited (p : PromoCode) : Prop := ∀ m ∈ p.maxUses, (p.usedCount : ℤ) ≤ max 0 m

theorem PromoCode.Limited.turn {x : Transition signature} {id : String} {p p' : PromoCode}
    (h : p.Limited) (hx : Turn x id p p') (hnot : ¬ p.Lowered p') : p'.Limited := by
  intro m' hm'
  rcases hx.limit with hle | hlimit
  · obtain ⟨m, hm, hmm⟩ : ∃ m ∈ p.maxUses, m ≤ m' := by
      by_contra hno
      exact hnot ⟨m', hm', fun m hm => not_le.mp fun hle => hno ⟨m, hm, hle⟩⟩
    have hused := h m hm
    omega
  · exact (hlimit m' hm').trans (le_max_right 0 m')

theorem run_limited (hs : Opening start) (hzero : ∀ p ∈ start.db.promoCodes.rows, p.usedCount = 0)
    (hr : Run (bank unicode) start tr w) (hj : Contract.Starts Job.Together tr)
    (hnever : NeverLowered tr) {id : String} {p₀ : PromoCode}
    (hp₀ : start.db.promoCodes.find? id = some p₀) :
    ∃ p, w.shared.db.promoCodes.find? id = some p ∧ p.Limited := by
  refine (counting_valid unicode).induction ⟨hs.inv, hs.backed⟩
    (motive := fun tr w => NeverLowered tr →
      ∃ p, w.shared.db.promoCodes.find? id = some p ∧ p.Limited) ?_ ?_ hr hj hnever
  · intro _
    refine ⟨p₀, hp₀, fun m _ => ?_⟩
    rw [hzero p₀ (Table.mem_of_find? hp₀)]
    exact le_max_left 0 m
  · intro tr w a w' _ _ _ hchange ih hnever
    obtain ⟨p, hp, hlimited⟩ := ih fun x hx => hnever x (List.mem_cons_of_mem _ hx)
    obtain ⟨p', hturn⟩ := turn_of_change hchange hp
    exact ⟨p', hturn.found,
      hlimited.turn hturn (hnever _ List.mem_cons_self id p p' hp hturn.found)⟩

/-- What a transition of a history does to a promo code. -/
theorem run_turn (hs : Opening start) {late early : List (Transition signature)}
    {x : Transition signature} (hr : Run (bank unicode) start (late ++ x :: early) w)
    (hj : Contract.Starts Job.Together (late ++ x :: early)) {id : String} {p : PromoCode}
    (hp : x.before.shared.db.promoCodes.find? id = some p) : ∃ p', Turn x id p p' := by
  obtain ⟨hr', hstep⟩ := hr.cut
  have hsafe := (counting_valid unicode).run ⟨hs.inv, hs.backed⟩ hr'
    fun y hy => hj y (by simp [hy])
  exact turn_of_change (hsafe.change hstep) hp

/-- The uses of every promo code are conserved: its count is the number of deposits made with it
less the number of those released. Each of these deposits has reserved one use, each release is
of a deposit that has, there is at most one for a deposit, and the guard of the count lets it
through. The count stays within a limit that is not negative. -/
theorem promo_uses_conserved (hs : Opening start)
    (hzero : ∀ p ∈ start.db.promoCodes.rows, p.usedCount = 0)
    (hr : Run (bank unicode) start tr w) (hj : Contract.Starts Job.Together tr) {id : String}
    {p : PromoCode} (hp : w.shared.db.promoCodes.find? id = some p) :
    p.usedCount + (changesOf .release id tr).length = (changesOf .reserve id tr).length ∧
      (changesOf .reserve id tr).Nodup ∧
      (∀ tid, tid ∈ changesOf .reserve id tr ↔
        ∃ t, w.shared.db.transactions.find? tid = some t ∧ t.promoCodeId = some id) ∧
      (changesOf .release id tr).Nodup ∧
      (∀ late x early, tr = late ++ x :: early → ∀ tid ∈ changesIn .release id x,
        tid ∈ changesOf .reserve id early ∧
          ∃ q q', x.before.shared.db.promoCodes.find? id = some q ∧
            x.after.shared.db.promoCodes.find? id = some q' ∧ q'.usedCount + 1 = q.usedCount) ∧
      (NeverLowered tr → ∀ m ∈ p.maxUses, (p.usedCount : ℤ) ≤ max 0 m) := by
  obtain ⟨p₀, hp₀⟩ := run_promoCode hs hr hj hp
  obtain ⟨p₁, haccount⟩ := run_account hs hzero hr hj hp₀
  obtain rfl := Option.some.inj (hp.symm.trans haccount.found)
  have hlisted := haccount.listed
  refine ⟨haccount.used, hlisted.reservedOnce, hlisted.deposits, hlisted.releasedOnce, ?_, ?_⟩
  · rintro late x early rfl tid hmem
    obtain ⟨hr', -⟩ := hr.cut
    have hj' : Contract.Starts Job.Together early := fun y hy => hj y (by simp [hy])
    obtain ⟨q, hq⟩ := run_account hs hzero hr' hj' hp₀
    obtain ⟨q', hturn⟩ := run_turn hs hr hj hq.found
    rcases hturn.transactions with ⟨-, hnone⟩ | ⟨j, t', -, hchange, hwritten⟩
    · rw [hnone] at hmem
      cases hmem
    · rw [hchange] at hmem
      split at hmem
      · next hc =>
        obtain rfl := List.mem_singleton.mp hmem
        have hother : ¬ (t'.promoCodeId = some id ∧ useChange j t' = some .reserve) := by
          simp [hc.2]
        have hused := hturn.used
        rw [hchange, hchange, if_pos hc, if_neg hother] at hused
        refine ⟨?_, q, q', hq.found, hturn.found, hused⟩
        rw [hq.listed.deposits]
        rcases hwritten with ⟨t, ht, hcode, -⟩ | ⟨-, hreserve, -⟩
        · exact ⟨t, ht, hcode ▸ hc.1⟩
        · exact absurd ⟨hc.1, hreserve⟩ hother
      · cases hmem
  · intro hnever
    obtain ⟨p₂, hp₂, hlimited⟩ := run_limited hs hzero hr hj hnever hp₀
    obtain rfl := Option.some.inj (hp.symm.trans hp₂)
    exact hlimited

end

/-- A promo code for one deposit. -/
def welcome : PromoCode where
  id := "promo"
  code := "WELCOME"
  discountPercent := 5000
  maxUses := some 1
  usedCount := 0
  isActive := true
  expiresAt := none

/-- The launch with this promo code. -/
def campaign (p : PromoCode) : Shared signature where
  db := { launch.db with promoCodes := (Table.empty _).put p }
  ext := launch.ext

theorem opening_campaign (p : PromoCode) : Opening (campaign p) := ⟨rfl, rfl, rfl, rfl, rfl⟩

theorem campaign_unused {p : PromoCode} (h : p.usedCount = 0) :
    ∀ q ∈ (campaign p).db.promoCodes.rows, q.usedCount = 0 := by
  simpa [campaign, Table.put, Table.empty, putRow] using h

/-- Alice deposits with the promo code. -/
def promoDeposit : List (Action signature) :=
  .start 0 (.createDeposit depositSettings
    { aliceDeposit with promoCode := some "WELCOME", promoCode_nonempty := by decide }) ::
    runs 0 4 ++ .give 0 "deposit" :: runs 0 3 ++ [commit 0]

/-- Her payment is refused. -/
def refusePayment : List (Action signature) :=
  .start 0 (.sbpPaymentWebhook { alicePayment with status := .failed } 0) :: runs 0 6 ++ [commit 0]

/-- The use count of the promo code, and its deposits and releases. -/
def promoUses (r : List (Transition signature) × World signature) :
    Option ℕ × List String × List String :=
  ((r.2.shared.db.promoCodes.find? "promo").map (·.usedCount), changesOf .reserve "promo" r.1,
    changesOf .release "promo" r.1)

/-- The refused payment gives the one use back. -/
theorem promo_uses_conserved_refused : ∃ tr w p, Run (bank .ascii) (campaign welcome) tr w ∧
    w.shared.db.promoCodes.find? "promo" = some p ∧ p.usedCount = 0 ∧
    changesOf .release "promo" tr = ["deposit"] ∧
    p.usedCount + (changesOf .release "promo" tr).length =
      (changesOf .reserve "promo" tr).length := by
  obtain ⟨tr, w, hr, hactions, hw⟩ := Run.exists_of_trace (bank .ascii) (campaign welcome)
    (promoDeposit ++ refusePayment) promoUses (b := (some 0, ["deposit"], ["deposit"])) (by decide)
  have hj : Contract.Starts Job.Together tr := Contract.Starts.of_actions hactions (by decide)
  obtain ⟨hrow, hchanges⟩ := Prod.mk.inj hw
  obtain ⟨p, hp, hused⟩ := Option.map_eq_some_iff.mp hrow
  have hconserved := promo_uses_conserved (opening_campaign welcome) (campaign_unused rfl) hr hj hp
  exact ⟨tr, w, p, hr, hp, hused, (Prod.mk.inj hchanges).2, hconserved.1⟩

/-- A limit below zero is exceeded by no use at all. -/
theorem not_uses_le_limit : ¬ ∀ (unicode : Unicode) (start : Shared signature)
    (tr : List (Transition signature)) (w : World signature), Opening start →
    (∀ p ∈ start.db.promoCodes.rows, p.usedCount = 0) → Run (bank unicode) start tr w →
    Contract.Starts Job.Together tr → NeverLowered tr →
    ∀ p ∈ w.shared.db.promoCodes.rows, ∀ m ∈ p.maxUses, (p.usedCount : ℤ) ≤ m := by
  intro h
  have hlimit := h .ascii (campaign { welcome with maxUses := some (-1) }) [] _
    (opening_campaign _) (campaign_unused rfl) .nil (by simp [Contract.Starts])
    (by simp [NeverLowered]) { welcome with maxUses := some (-1) }
    (Table.mem_put.mpr (.inl rfl)) (-1) rfl
  exact absurd hlimit (by decide)

end MoneyWay
