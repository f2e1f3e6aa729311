import MoneyWay.PromoUses

/-!
# Uses that are not returned

A transaction that becomes failed or charged back gives the use of its promo code back,
unless it is the worker that fails it.
-/

set_option autoImplicit false

namespace MoneyWay

open Keyed ReadCommitted Python Sql

section

variable {unicode : Unicode} {start : Shared signature} {tr : List (Transition signature)}
  {w : World signature}

/-- A worker step that commits for a paid transaction with a promo code what BingX has
answered: there is no such recipient. -/
def FailsPromo (unicode : Unicode) (x : Transition signature) : Prop :=
  ∃ s v settings y a payload t, x.Commits s v ∧ s.job = .processTransfer settings ∧
    s.txn.calls = [(BingxTransfer.request y, a)] ∧ answerRoute unicode a = .fail payload ∧
    y ∈ x.before.shared.db.bingxTransfers.rows ∧
    x.before.shared.db.transactions.find? y.transactionId = some t ∧ t.status = .paid ∧
    t.promoCodeId.isSome = true

/-- A transaction with a promo code that becomes failed or charged back returns its use in
the same transition. -/
def ReturnsUses (x : Transition signature) : Prop :=
  ∀ tid t t' id p, x.before.shared.db.transactions.find? tid = some t →
    x.after.shared.db.transactions.find? tid = some t' → ¬ t.status.Absorbing →
    t'.status.Absorbing → t.promoCodeId = some id →
    x.before.shared.db.promoCodes.find? id = some p →
    ∃ p', x.after.shared.db.promoCodes.find? id = some p' ∧ p'.usedCount + 1 = p.usedCount

/-- Every use belongs to a transaction that is neither failed nor charged back. -/
def Tallied (d : Database) : Prop := ∀ p ∈ d.promoCodes.rows, p.usedCount = d.holders p.id

instance (d : Database) : Decidable (Tallied d) :=
  inferInstanceAs (Decidable (∀ p ∈ d.promoCodes.rows, p.usedCount = d.holders p.id))

/-- A use is only kept where the worker fails a transaction. -/
theorem failsPromo_of_keep {x : Transition signature}
    (h : (counting unicode).Change (bank unicode) Job.Together x) {id : String}
    (hne : changesIn .keep id x ≠ []) : FailsPromo unicode x := by
  rcases h.together fun _ hj => hj with ⟨hno, -⟩ | ⟨s, v, hc, -, ho, -, -⟩
  · rw [changesIn, Transition.commit?_eq_none hno] at hne
    exact absurd rfl hne
  · have hcounts : Counts unicode s.txn x.before.shared s.job _ := Outcome.counts ho
    rw [changesIn, hc.commit?, Option.elim_some, ← changes_counted] at hne
    generalize hws : s.txn.pending.filter Write.counted = ws at hcounts hne
    generalize hjob : s.job = j at hcounts hne
    cases hcounts with
    | nothing => exact absurd rfl hne
    | @reserved settings r discount reserve t hres hfresh hst =>
      have hcreate : useChange (.createDeposit settings r) t = some .reserve := by simp [useChange]
      rw [changes_eq (hres.written t), hcreate] at hne
      simp at hne
    | moved _ _ _ _ hnone =>
      rw [changes_eq rfl, hnone] at hne
      simp at hne
    | @released _ t t' ws _ _ _ _ hchange hrel =>
      rw [changes_eq (hrel.written t'), hchange] at hne
      simp at hne
    | @kept settings y a payload t t' hcalls hroute hy ht hst _ hcode =>
      refine ⟨s, v, settings, y, a, payload, t, hc, hjob, hcalls, hroute, hy, ht, hst, ?_⟩
      rw [changes_eq rfl] at hne
      split at hne
      · next hid => rw [← hcode, hid.1]; rfl
      · exact absurd rfl hne
    | edited => exact absurd rfl hne

/-- A worker neither reserves nor releases. -/
theorem changes_processTransfer {settings : WorkerSettings} {c : UseChange} (hc : c ≠ .keep)
    (id : String) (ws : List Write) : changes c id (.processTransfer settings) ws = [] := by
  rw [changes, List.map_eq_nil_iff, List.filter_eq_nil_iff]
  intro t _ hmem
  obtain ⟨-, hchange⟩ := of_decide_eq_true hmem
  unfold useChange at hchange
  split at hchange <;> simp_all

/-- Once a transaction has left pending without being paid, it is never paid. -/
theorem TransactionStatus.ne_paid_of_moves {a b : TransactionStatus} (hpaid : a ≠ .paid)
    (hpending : a ≠ .pending) (h : Relation.ReflTransGen Move a b) : b ≠ .paid := by
  have hboth : b ≠ .paid ∧ b ≠ .pending := by
    induction h with
    | refl => exact ⟨hpaid, hpending⟩
    | tail _ hlast ih =>
      refine ⟨?_, hlast.ne_pending⟩
      rintro rfl
      cases hlast
      exact ih.2 rfl
  exact hboth.1

/-- Where the worker fails a paid transaction with a promo code, its use is not returned. -/
theorem not_returnsUses {x : Transition signature}
    (hs : (counting unicode).inv x.before.shared)
    (h : (counting unicode).Change (bank unicode) Job.Together x) (hx : FailsPromo unicode x) :
    ¬ ReturnsUses x := by
  intro hreturns
  obtain ⟨s, v, settings, y, a, payload, t, hc, hjob, hcalls, hroute, hy, ht, hst, hcode⟩ := hx
  obtain ⟨id, hid⟩ := Option.isSome_iff_exists.mp hcode
  obtain ⟨p, hp⟩ := hs.2.stored t (Table.mem_of_find? ht) id hid
  obtain ⟨p', hturn⟩ := turn_of_change h hp
  have hnone {c : UseChange} (hne : c ≠ .keep) : changesIn c id x = [] := by
    rw [changesIn, hc.commit?, Option.elim_some, hjob, changes_processTransfer hne]
  -- the transaction is failed afterwards
  have hdead : ∃ t', x.after.shared.db.transactions.find? y.transactionId = some t' ∧
      t'.status.Absorbing := by
    obtain ⟨u, hu, -, hbefore⟩ := Database.file_of_transfer hs.1.sound hy
    rw [ht] at hu
    cases hu
    rcases file_change rfl counting_inv hs h y.transactionId with
      ⟨hno, -⟩ | ⟨s', v', hc', -, hpast, hstep⟩
    · exact absurd hc (hno s v)
    obtain rfl := hc'.eq_of_run hc.1 hc.2.1
    rw [hbefore] at hstep
    generalize hafter : x.after.shared.db.file y.transactionId = f' at hstep
    rw [hjob] at hstep
    cases hstep with
    | kept hother =>
      refine absurd ?_ (hother (y.request, a) (by simp [hcalls]))
      exact hs.1.sound.idempotencyKey_eq hy
    | @recorded _ _ y' now a' set _ t' k _ _ hcalls' hset hupdated =>
      rw [hcalls] at hcalls'
      cases hcalls'
      rw [hroute] at hset
      obtain ⟨ht', -, -⟩ := Database.find?_of_file hafter
      cases hset with
      | failed =>
        cases hupdated with
        | paid => exact ⟨_, ht', .inl rfl⟩
        | @skipped set q t₀ hq hy₀ ht₀ hne =>
          obtain ⟨⟨hinv, -⟩, hleads⟩ := hpast q hq
          obtain ⟨t₁, ht₁, hpending, -⟩ := hinv.sound.owner y (Table.mem_of_find? hy₀)
          rw [ht₀] at ht₁
          cases ht₁
          have hpers := hleads.lift (r := fun s s' => Persists s.db s'.db)
            (fun s => Persists.refl s.db) (fun _ _ _ => Persists.trans)
            fun _ _ (hg : Guar _ _) => hg.db.persists
          obtain ⟨t₂, ht₂, -, hmoves⟩ := hpers.transaction _ _ ht₀
          rw [ht] at ht₂
          cases ht₂
          exact absurd hst (TransactionStatus.ne_paid_of_moves hne hpending hmoves)
  obtain ⟨t', ht', hdead⟩ := hdead
  obtain ⟨p₁, hp₁, hused⟩ := hreturns _ t t' id p ht ht'
    (by simp [TransactionStatus.Absorbing, hst]) hdead hid hp
  obtain rfl := Option.some.inj (hp₁.symm.trans hturn.found)
  have hcount := hturn.used
  rw [hnone (by simp), hnone (by simp)] at hcount
  simp only [List.length_nil] at hcount
  omega

/-- Where no use is kept, a transaction that dies returns its use. -/
theorem returnsUses_of_turn {x : Transition signature}
    (hturn : ∀ id p, x.before.shared.db.promoCodes.find? id = some p → ∃ p', Turn x id p p')
    (hkeep : ∀ id, changesIn .keep id x = []) : ReturnsUses x := by
  intro tid t t' id p ht ht' hlive hdead hid hp
  obtain ⟨p', hturn⟩ := hturn id p hp
  refine ⟨p', hturn.found, ?_⟩
  rcases hturn.transactions with ⟨hsame, -⟩ | ⟨j, u, hput, hchange, hwritten⟩
  · rw [hsame, ht] at ht'
    cases ht'
    exact absurd hdead hlive
  rw [hput, Table.find?_put] at ht'
  split at ht'
  · next he =>
    cases ht'
    subst he
    rcases hwritten with ⟨t₀, ht₀, hcode, -, hkind⟩ | ⟨hfresh, -⟩
    · rw [ht] at ht₀
      cases ht₀
      rcases hkind with ⟨-, halive⟩ | ⟨hrelease | hkept, -⟩
      · exact absurd hdead halive
      · have hused := hturn.used
        rw [hchange, hchange, if_pos ⟨hcode.trans hid, hrelease⟩, if_neg (by simp [hrelease])]
          at hused
        exact hused
      · have hnone := hkeep id
        rw [hchange, if_pos ⟨hcode.trans hid, hkept⟩] at hnone
        cases hnone
    · rw [ht] at hfresh
      cases hfresh
  · rw [ht] at ht'
    cases ht'
    exact absurd hdead hlive

/-- Every dead transaction has returned its use, in every step and every state of a history,
exactly when no worker step of it fails a paid transaction with a promo code. -/
theorem promo_uses_returned_iff (hs : Opening start)
    (hzero : ∀ p ∈ start.db.promoCodes.rows, p.usedCount = 0)
    (hr : Run (bank unicode) start tr w) (hj : Contract.Starts Job.Together tr) :
    (∀ x ∈ tr, ReturnsUses x ∧ Tallied x.after.shared.db) ↔ ∀ x ∈ tr, ¬ FailsPromo unicode x := by
  have hchange {late early : List (Transition signature)} {x : Transition signature}
      (he : tr = late ++ x :: early) : (counting unicode).inv x.before.shared ∧
        (counting unicode).Change (bank unicode) Job.Together x := by
    subst he
    obtain ⟨hr', hstep⟩ := hr.cut
    have hsafe := (counting_valid unicode).run ⟨hs.inv, hs.backed⟩ hr'
      fun y hy => hj y (by simp [hy])
    exact ⟨hsafe.inv, hsafe.change hstep⟩
  constructor
  · intro h x hx hfails
    obtain ⟨late, early, he⟩ := List.append_of_mem hx
    obtain ⟨hinv, hc⟩ := hchange he
    exact not_returnsUses hinv hc hfails (h x hx).1
  · intro hnot x hx
    have hkeep (y : Transition signature) (hy : y ∈ tr) (id : String) :
        changesIn .keep id y = [] := by
      by_contra hne
      obtain ⟨late, early, he⟩ := List.append_of_mem hy
      exact hnot y hy (failsPromo_of_keep (hchange he).2 hne)
    obtain ⟨late, early, rfl⟩ := List.append_of_mem hx
    refine ⟨returnsUses_of_turn (fun id p hp => run_turn hs hr hj hp) (hkeep x hx), fun p hp => ?_⟩
    obtain ⟨hr', hstep⟩ := hr.cut
    have hrun : Run (bank unicode) start (x :: early) x.after := hr'.snoc hstep
    have hj' : Contract.Starts Job.Together (x :: early) := fun y hy => hj y (by
      rcases List.mem_cons.mp hy with rfl | hy <;> simp [*])
    have hfind := Table.find?_of_mem hp
    obtain ⟨p₀, hp₀⟩ := run_promoCode hs hrun hj' hfind
    obtain ⟨p', haccount⟩ := run_account hs hzero hrun hj' hp₀
    obtain rfl := Option.some.inj (hfind.symm.trans haccount.found)
    have hnone : changesOf .keep p.id (x :: early) = [] := by
      rw [changesOf, List.flatMap_eq_nil_iff]
      intro y hy
      exact hkeep y (by rcases List.mem_cons.mp hy with rfl | hy <;> simp [*]) p.id
    have hholders := haccount.holders
    rw [hnone] at hholders
    exact hholders.symm

end

/-- Whether the uses are tallied after the last transition, with the statuses of the deposit
and its payout. -/
def promoTally (r : List (Transition signature) × World signature) :
    Option Bool × Option TransactionStatus × Option TransferStatus :=
  (r.1.head?.map fun x => decide (Tallied x.after.shared.db), statuses r.2)

/-- After the refused payment the uses are tallied. -/
theorem promo_uses_returned_iff_refused : ∃ tr w, Run (bank .ascii) (campaign welcome) tr w ∧
    (statuses w).1 = some .failed ∧ ∀ x ∈ tr, ReturnsUses x ∧ Tallied x.after.shared.db := by
  obtain ⟨tr, w, hr, hactions, hw⟩ := Run.exists_of_trace (bank .ascii) (campaign welcome)
    (promoDeposit ++ refusePayment)
    (fun r => (r.1.all fun x => x.calls.isEmpty, (statuses r.2).1)) (b := (true, some .failed))
    (by decide)
  have hj : Contract.Starts Job.Together tr := Contract.Starts.of_actions hactions (by decide)
  obtain ⟨hcalls, hst⟩ := Prod.mk.inj hw
  refine ⟨tr, w, hr, hst, ?_⟩
  refine (promo_uses_returned_iff (opening_campaign welcome) (campaign_unused rfl) hr hj).mpr ?_
  rintro x hx ⟨s, v, settings, y, a, payload, t, hc, -, hone, -⟩
  -- nothing has been sent
  have hnone := List.all_eq_true.mp hcalls x hx
  rw [hc.calls, hone] at hnone
  cases hnone

/-- The deposit is paid, and BingX does not know the recipient. -/
theorem not_promo_uses_returned : ¬ ∀ (unicode : Unicode) (start : Shared signature)
    (tr : List (Transition signature)) (w : World signature), Opening start →
    (∀ p ∈ start.db.promoCodes.rows, p.usedCount = 0) → Run (bank unicode) start tr w →
    Contract.Starts Job.Together tr →
    ∀ x ∈ tr, ReturnsUses x ∧ Tallied x.after.shared.db := by
  intro h
  obtain ⟨tr, w, hr, hactions, hw⟩ := Run.exists_of_trace (bank .ascii) (campaign welcome)
    (promoDeposit ++ payDeposit ++ commit 0 :: sendPayout 0 ++
      recordAnswer 0 (refusal "recipient not found") 5 ++ [commit 0]) promoTally
    (b := (some false, some .failed, some .failed)) (by decide)
  have hj : Contract.Starts Job.Together tr := Contract.Starts.of_actions hactions (by decide)
  obtain ⟨x, hx, htally⟩ := Option.map_eq_some_iff.mp (Prod.mk.inj hw).1
  have htallied := (h .ascii (campaign welcome) tr w (opening_campaign welcome)
    (campaign_unused rfl) hr hj x (List.mem_of_mem_head? hx)).2
  exact absurd htallied (of_decide_eq_false htally)

end MoneyWay
