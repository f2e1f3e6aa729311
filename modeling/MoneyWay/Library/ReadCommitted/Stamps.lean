import Mathlib.Algebra.Order.Group.Int
import MoneyWay.Library.ReadCommitted.Step

/-!
# The times a session writes down

Code that stamps its writes with what it has last read from the clock leaves stamps that grow from
one write to the next, and none that lies in the future.

## Main definitions

- `Prog.Stamps` — every stamp is the last reading of the clock
- `Session.Stamped` — what a session has written is stamped in order

## Main results

- `Run.stamped` — the rule for the sessions of a history
-/

set_option autoImplicit false

namespace ReadCommitted

open Keyed

section

variable {σ : Signature} {α β : Type} (stamp : σ.Write → Option ℤ)

/-- From here on, with `t` as the last reading, every stamp is the last reading of the clock. -/
def Prog.Stamps : Prog σ α → ℤ → Prop
  | .done _, _ => True
  | .throw _, _ => True
  | .stmt q k, t => (∀ blocked d eff, q blocked d = .ok eff →
      ∀ w ∈ eff.writes, ∀ u ∈ stamp w, u = t) ∧ ∀ v, (k v).Stamps t
  | .call _ k, t => ∀ a, (k a).Stamps t
  | .await _ k, t => ∀ a, (k a).Stamps t
  | .clock k, t => ∀ u, t ≤ u → (k u).Stamps u
  | .fresh k, t => ∀ i, (k i).Stamps t

variable {stamp}

namespace Prog.Stamps

theorem bind {p : Prog σ α} {f : α → Prog σ β} {t : ℤ} (hp : p.Stamps stamp t)
    (hf : ∀ v u, t ≤ u → (f v).Stamps stamp u) : (p >>= f).Stamps stamp t := by
  induction p generalizing t with
  | done v => exact hf v t le_rfl
  | throw e => exact trivial
  | stmt q k ih => exact ⟨hp.1, fun v => ih v (hp.2 v) hf⟩
  | call q k ih => exact fun a => ih a (hp a) hf
  | await q k ih => exact fun a => ih a (hp a) hf
  | clock k ih =>
    exact fun u hu => ih u (hp u hu) fun v u' hu' => hf v u' (hu.trans hu')
  | fresh k ih => exact fun i => ih i (hp i) hf

theorem exec {q : Stmt σ.Db σ.Write σ.Row σ.Error α} {t : ℤ}
    (h : ∀ blocked d eff, q blocked d = .ok eff → ∀ w ∈ eff.writes, ∀ u ∈ stamp w, u = t) :
    (Prog.exec q : Prog σ α).Stamps stamp t := ⟨h, fun _ => trivial⟩

theorem now {f : ℤ → Prog σ α} {t : ℤ} (h : ∀ u, t ≤ u → (f u).Stamps stamp u) :
    (Prog.now >>= f).Stamps stamp t := h

end Prog.Stamps

variable (stamp)

/-- The stamps of the writes of a session are in order and no later than its last reading, which
is not in the future. -/
def Session.Stamped (now : ℤ) (s : Session σ) : Prop :=
  ∃ t ≤ now, s.prog.Stamps stamp t ∧ (s.txn.pending.filterMap stamp).Pairwise (· ≤ ·) ∧
    ∀ u ∈ s.txn.pending.filterMap stamp, u ≤ t

variable {stamp}

theorem Session.Stamped.later {now now' : ℤ} {s : Session σ} (h : s.Stamped stamp now)
    (hle : now ≤ now') : s.Stamped stamp now' := by
  obtain ⟨t, ht, hrest⟩ := h
  exact ⟨t, ht.trans hle, hrest⟩

variable [Store σ.Db σ.Write σ.Row] {S : System σ}

/-- The step lemma: one operation of such a session. -/
theorem Session.Stamped.step {s t : Session σ} {sh : Shared σ}
    (h : s.Stamped stamp (S.now sh.ext)) (hstep : s.Step S sh t) :
    t.Stamped stamp (S.now sh.ext) := by
  obtain ⟨u, hu, hprog, hsorted, hlast⟩ := h
  cases hstep with
  | give i hp =>
    rw [hp] at hprog
    exact ⟨u, hu, hprog i, hsorted, hlast⟩
  | answer a hp =>
    rw [hp] at hprog
    exact ⟨u, hu, hprog a, hsorted, hlast⟩
  | advance hadv =>
    cases hadv with
    | fail hp hq => exact ⟨u, hu, trivial, hsorted, hlast⟩
    | together hp hq hb ha =>
      rw [hp] at hprog
      have hnew := hprog.1 _ _ _ hq
      refine ⟨u, hu, hprog.2 _, ?_, fun v hv => ?_⟩
      · simp only [Txn.executed, List.filterMap_append, List.pairwise_append]
        refine ⟨hsorted, List.pairwise_of_forall_mem_list fun v hv v' hv' => ?_,
          fun v hv v' hv' => ?_⟩
        · obtain ⟨w, hw, hwv⟩ := List.mem_filterMap.mp hv
          obtain ⟨w', hw', hwv'⟩ := List.mem_filterMap.mp hv'
          exact ((hnew w hw v hwv).trans (hnew w' hw' v' hwv').symm).le
        · obtain ⟨w', hw', hwv'⟩ := List.mem_filterMap.mp hv'
          rw [hnew w' hw' v' hwv']
          exact hlast v hv
      · simp only [Txn.executed, List.filterMap_append] at hv
        rcases List.mem_append.mp hv with hv | hv
        · exact hlast v hv
        · obtain ⟨w, hw, hwv⟩ := List.mem_filterMap.mp hv
          exact (hnew w hw v hwv).le
    | single hp hq hb ha =>
      rw [hp] at hprog
      exact ⟨u, hu, hprog.2 _, hsorted, hlast⟩
    | clock hp =>
      rw [hp] at hprog
      exact ⟨_, le_rfl, hprog _ hu, hsorted, fun v hv => (hlast v hv).trans hu⟩
    | send hp =>
      rw [hp] at hprog
      exact ⟨u, hu, fun a => hprog a, hsorted, hlast⟩

variable [DecidableEq σ.Row]

/-- The run lemma, for a clock that does not go back. -/
theorem Run.stamped {jobs : σ.Job → Prop} {start : Shared σ} {tr : List (Transition σ)}
    {w : World σ} (hprog : ∀ j, jobs j → ∀ t, (S.program j).Stamps stamp t)
    (hclock : ∀ x ∈ tr, S.now x.before.shared.ext ≤ S.now x.after.shared.ext)
    (hr : Run S start tr w) :
    ∀ s ∈ w.sessions.rows, jobs s.job → s.Stamped stamp (S.now w.shared.ext) := by
  induction hr with
  | nil => simp [World.idle, Table.empty]
  | @snoc tr w w' a hr hstep ih =>
    have hle : S.now w.shared.ext ≤ S.now w'.shared.ext := hclock ⟨w, a, w'⟩ List.mem_cons_self
    have ih := ih fun x hx => hclock x (List.mem_cons_of_mem _ hx)
    intro t ht hj
    rcases World.session_cases hstep ht with hsame | ⟨j, -, he⟩ | ⟨s, hs, hst, -⟩
    · exact (ih t hsame.1 hj).later hle
    · rw [he] at hj ⊢
      exact ⟨_, le_rfl, hprog j hj _, by simp, by simp⟩
    · have hj : jobs s.job := hst.job_eq ▸ hj
      exact ((ih s hs hj).step hst).later hle

end

end ReadCommitted
