import MoneyWay.Library.ReadCommitted.Soundness

/-!
# More known at a request

A contract says what is known when a session sends a request. To say more, only the code of the
jobs that send has to be looked at again, and of it only the part up to the last request.

## Main definitions

- `Prog.Silent` — no request from here on
- `Contract.sending` — the contract with other facts known at a request

## Main results

- `Contract.Valid.sending` — the rule for changing what is known at a request
-/

set_option autoImplicit false

namespace ReadCommitted

open Keyed

section

variable {σ : Signature} {α β : Type}

/-- No request from here on, and none on its way. -/
def Prog.Silent : Prog σ α → Prop
  | .done _ => True
  | .throw _ => True
  | .stmt _ k => ∀ v, (k v).Silent
  | .call _ _ => False
  | .await _ _ => False
  | .clock k => ∀ t, (k t).Silent
  | .fresh k => ∀ i, (k i).Silent

namespace Prog.Silent

theorem bind {p : Prog σ α} {f : α → Prog σ β} (hp : p.Silent) (hf : ∀ v, (f v).Silent) :
    (p >>= f).Silent := by
  induction p with
  | done v => exact hf v
  | throw e => exact trivial
  | stmt q k ih => exact fun v => ih v (hp v)
  | call q k ih => exact hp.elim
  | await q k ih => exact hp.elim
  | clock k ih => exact fun t => ih t (hp t)
  | fresh k ih => exact fun i => ih i (hp i)

theorem exec {q : Stmt σ.Db σ.Write σ.Row σ.Error α} : (Prog.exec q : Prog σ α).Silent :=
  fun _ => trivial

theorem now {f : ℤ → Prog σ α} (h : ∀ t, (f t).Silent) : (Prog.now >>= f).Silent := h

end Prog.Silent

namespace Contract

/-- The contract with other facts known at a request. -/
def sending (P : Contract σ) (sends : σ.Job → σ.Request → Shared σ → Prop) : Contract σ :=
  { P with sends }

variable {P : Contract σ} {S : System σ} {sends : σ.Job → σ.Request → Shared σ → Prop}

theorem Leads.of_sending {s s' : Shared σ} (h : (P.sending sends).Leads s s') : P.Leads s s' :=
  h.weaken P (fun _ h => h) fun _ _ h => h

variable [Store σ.Db σ.Write σ.Row]

theorem Later.of_sending {held : List (σ.Row × LockMode)} {s s' : Shared σ}
    (h : (P.sending sends).Later held s s') : P.Later held s s' :=
  ⟨h.inv, h.leads.of_sending, h.rows⟩

/-- Code that sends nothing meets both alike. -/
theorem Wp.sending {j : σ.Job} {p : Prog σ α} {Q : α → Txn σ → Shared σ → Prop} {x : Txn σ}
    {s : Shared σ} (h : P.Wp S j p Q x s) (hp : p.Silent) : (P.sending sends).Wp S j p Q x s := by
  induction p generalizing x s with
  | done v => exact h
  | throw e => trivial
  | stmt q k ih =>
    intro t ht blocked eff hq
    obtain ⟨hask, hk⟩ := h t ht.of_sending blocked eff hq
    exact ⟨hask, ih _ hk (hp _)⟩
  | call q k ih => exact hp.elim
  | await q k ih => exact hp.elim
  | clock k ih => exact fun t ht => ih _ (h t ht.of_sending) (hp _)
  | fresh k ih => exact fun i => ih i (h i) (hp i)

theorem AtCommit.sending {j : σ.Job} {v : σ.Result} {x : Txn σ} {s : Shared σ}
    (h : P.AtCommit j v x s) : (P.sending sends).AtCommit j v x s :=
  fun t ht => h t ht.of_sending

theorem Ok.sending {j : σ.Job} {p : Prog σ σ.Result} {x : Txn σ} {s : Shared σ}
    (h : P.Ok S j p x s) (hp : p.Silent) : (P.sending sends).Ok S j p x s :=
  Wp.sending (h.mono fun _ _ _ => AtCommit.sending) hp

/-- The rule: a job of a valid contract sends nothing, or its code is looked at again. -/
theorem Valid.sending {jobs : σ.Job → Prop} (hv : P.Valid S jobs)
    (hauto : ∀ j, jobs j → S.autocommit j = false)
    (hj : ∀ j, jobs j → (S.program j).Silent ∨
      ∀ s, P.inv s → (P.sending sends).Ok S j (S.program j) {} s) :
    (P.sending sends).Valid S jobs where
  program j hjob s hs := by
    have hm := hv.program j hjob s hs
    simp only [Meets, hauto j hjob, Bool.false_eq_true, if_false] at hm ⊢
    rcases hj j hjob with hsilent | hok
    · exact hm.sending hsilent
    · exact hok s hs
  commit j v x s hjob ha hs hpast ho :=
    hv.commit j v x s hjob ha hs (fun p hp => ⟨(hpast p hp).1, (hpast p hp).2.of_sending⟩) ho
  event := hv.event

end Contract

end

end ReadCommitted
