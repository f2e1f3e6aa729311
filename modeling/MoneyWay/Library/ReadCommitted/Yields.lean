import MoneyWay.Library.ReadCommitted.Alone
import MoneyWay.Library.ReadCommitted.Writes

/-!
# What code ends with

Code that ends with a certain value and certain writes, as long as the database is in a certain
state whenever one of its statements reads it. Other sessions may do anything else meanwhile.

## Main definitions

- `Prog.Yields` — what the code ends with, while the database is in such a state

## Main results

- `Run.snapshots_late` — a session has only read the database after its start
- `Run.yields` — the rule for histories
-/

set_option autoImplicit false

namespace ReadCommitted

open Keyed

section

variable {σ : Signature} [Store σ.Db σ.Write σ.Row] [DecidableEq σ.Row] {S : System σ}
  {w w' : World σ} {a : Action σ}

/-- A session that was started in the later part of a history has read nothing from before. -/
theorem Run.snapshots_late {start : Shared σ} {late early : List (Transition σ)}
    (hr : Run S start (late ++ early) w) {s : Session σ} (hs : s ∈ w.sessions.rows)
    (hlate : ∃ y ∈ late, ∃ j, y.action = .start s.id j) :
    ∀ q ∈ s.txn.snapshots, ∃ y ∈ late, y.before.shared = q := by
  induction late generalizing w s with
  | nil =>
    obtain ⟨y, hy, -⟩ := hlate
    cases hy
  | cons x late ih =>
    cases hr with
    | @snoc _ w₀ _ a hr h =>
      have hearlier (hne : ∀ j, a ≠ .start s.id j) : ∃ y ∈ late, ∃ j, y.action = .start s.id j := by
        obtain ⟨y, hy, j, hj⟩ := hlate
        cases List.mem_cons.mp hy with
        | inl he =>
          rw [he] at hj
          exact absurd hj (hne j)
        | inr hmem => exact ⟨y, hmem, j, hj⟩
      intro q hq
      cases World.session_cases h hs with
      | inl hsame =>
        obtain ⟨y, hy, he⟩ := ih hr hsame.1 (hearlier hsame.2) q hq
        exact ⟨y, List.mem_cons_of_mem _ hy, he⟩
      | inr hrest =>
        cases hrest with
        | inl hnew =>
          obtain ⟨j, -, he⟩ := hnew
          rw [he] at hq
          cases hq
        | inr hmoved =>
          obtain ⟨s₀, hs₀, hst, hne⟩ := hmoved
          have hstarted := hearlier (hne s.id)
          rw [hst.id_eq] at hstarted
          have hold (hq : q ∈ s₀.txn.snapshots) :
              ∃ y ∈ (⟨w₀, a, w⟩ :: late : List (Transition σ)), y.before.shared = q := by
            obtain ⟨y, hy, he⟩ := ih hr hs₀ hstarted q hq
            exact ⟨y, List.mem_cons_of_mem _ hy, he⟩
          cases hst.snapshots with
          | inl he => exact hold (he ▸ hq)
          | inr he =>
            rw [he, List.mem_append, List.mem_singleton] at hq
            cases hq with
            | inl hq => exact hold hq
            | inr hq => exact ⟨⟨w₀, a, w⟩, List.mem_cons_self, hq.symm⟩

end

/-! ## While the database is in a state -/

section

variable {σ : Signature} [Store σ.Db σ.Write σ.Row] {α β : Type} {φ : σ.Db → Prop}

/-- The code ends, if by a value, with `Q` of it and of all writes, those made before included,
as long as every database its statements read has `φ`. -/
def Prog.Yields (φ : σ.Db → Prop) {α : Type} (Q : α → List σ.Write → Prop) :
    Prog σ α → List σ.Write → Prop
  | .done v, ws => Q v ws
  | .throw _, _ => True
  | .stmt q k, ws => ∀ d, φ d → ∀ blocked eff, q blocked (replay ws d) = .ok eff →
      (k eff.value).Yields φ Q (ws ++ eff.writes)
  | .call _ k, ws => ∀ a, (k a).Yields φ Q ws
  | .await _ k, ws => ∀ a, (k a).Yields φ Q ws
  | .clock k, ws => ∀ t, (k t).Yields φ Q ws
  | .fresh k, ws => ∀ i, (k i).Yields φ Q ws

namespace Prog.Yields

variable {Q : α → List σ.Write → Prop} {ws : List σ.Write}

theorem bind {R : β → List σ.Write → Prop} {p : Prog σ α} {f : α → Prog σ β}
    (h : p.Yields φ (fun v ws => (f v).Yields φ R ws) ws) : (p >>= f).Yields φ R ws := by
  induction p generalizing ws with
  | done v => exact h
  | throw e => trivial
  | stmt q k ih => exact fun d hd blocked eff hq => ih _ (h d hd blocked eff hq)
  | call q k ih => exact fun a => ih a (h a)
  | await q k ih => exact fun a => ih a (h a)
  | clock k ih => exact fun t => ih t (h t)
  | fresh k ih => exact fun i => ih i (h i)

theorem exec {q : Stmt σ.Db σ.Write σ.Row σ.Error α}
    (h : ∀ d, φ d → ∀ blocked eff, q blocked (replay ws d) = .ok eff →
      Q eff.value (ws ++ eff.writes)) : (Prog.exec q : Prog σ α).Yields φ Q ws := h

theorem now {f : ℤ → Prog σ α} (h : ∀ t, (f t).Yields φ Q ws) :
    (Prog.now >>= f).Yields φ Q ws := h

theorem uuid {f : σ.Ident → Prog σ α} (h : ∀ i, (f i).Yields φ Q ws) :
    (Prog.uuid >>= f).Yields φ Q ws := h

theorem mono {R : α → List σ.Write → Prop} {p : Prog σ α} (h : p.Yields φ Q ws)
    (hQ : ∀ v ws, Q v ws → R v ws) : p.Yields φ R ws := by
  induction p generalizing ws with
  | done v => exact hQ v ws h
  | throw e => trivial
  | stmt q k ih => exact fun d hd blocked eff hq => ih _ (h d hd blocked eff hq)
  | call q k ih | await q k ih | clock k ih | fresh k ih => exact fun x => ih x (h x)

/-- The writes that were there before stay. -/
theorem of_extends {p : Prog σ α} (h : ∀ v ws', ws <+: ws' → Q v ws') : p.Yields φ Q ws := by
  induction p generalizing ws with
  | done v => exact h v ws (List.prefix_refl ws)
  | throw e => trivial
  | stmt q k ih =>
    exact fun d _ blocked eff _ => ih _ fun v ws' hpre =>
      h v ws' ((List.prefix_append _ _).trans hpre)
  | call q k ih | await q k ih | clock k ih | fresh k ih => exact fun x => ih x h

end Prog.Yields

/-- Code that only makes writes of a kind adds such writes. -/
theorem Prog.Writes.yields {ψ : σ.Write → Prop} {p : Prog σ α}
    (h : p.Writes (fun _ => True) ψ) (ws : List σ.Write) :
    p.Yields φ (fun _ ws' => ∃ rest, ws' = ws ++ rest ∧ ∀ w ∈ rest, ψ w) ws := by
  induction p generalizing ws with
  | done v => exact ⟨[], (List.append_nil ws).symm, by simp⟩
  | throw e => trivial
  | stmt q k ih =>
    intro d _ blocked eff hq
    obtain ⟨hws, hk⟩ := h _ _ _ hq
    refine (ih _ hk (ws ++ eff.writes)).mono fun v ws' hrest => ?_
    obtain ⟨rest, he, hkind⟩ := hrest
    exact ⟨eff.writes ++ rest, by rw [he, List.append_assoc],
      List.forall_mem_append.mpr ⟨hws, hkind⟩⟩
  | call q k ih | await q k ih => exact fun a => ih a (h a trivial) ws
  | clock k ih | fresh k ih => exact fun x => ih x (h x) ws

variable {S : System σ}

/-- The rule for a session that runs alone. -/
theorem Prog.Yields.of_alone {Q : α → List σ.Write → Prop} {p : Prog σ α} {x x' : Txn σ}
    {s s' : Shared σ} {r : Option (Except σ.Error α)} (h : p.Yields φ Q x.pending) (hd : φ s.db)
    (ha : Alone S p x s r x' s') : ∀ v, r = some (.ok v) → Q v x'.pending := by
  induction ha with
  | done =>
    intro v hv
    cases hv
    exact h
  | throw | lost | fail =>
    intro v hv
    cases hv
  | stmt hq _ ih => exact ih (h _ hd _ _ hq) hd
  | call _ ih => exact ih h hd
  | answer _ ih | fresh _ ih => exact ih (h _) hd
  | clock _ ih => exact ih (h _) hd
  | event _ _ ih => exact ih h hd

/-- What holds of an open session whose code yields `Q`. -/
def Session.Yields (φ : σ.Db → Prop) (Q : σ.Job → σ.Result → List σ.Write → Prop)
    (s : Session σ) : Prop :=
  (∀ q ∈ s.txn.snapshots, φ q.db) → s.prog.Yields φ (Q s.job) s.txn.pending

/-- The step lemma, for jobs whose statements commit together. -/
theorem Session.Yields.step {Q : σ.Job → σ.Result → List σ.Write → Prop} {sh : Shared σ}
    {s t : Session σ} (h : s.Yields φ Q) (hauto : S.autocommit s.job = false)
    (hst : s.Step S sh t) : t.Yields φ Q := by
  intro hsnap
  cases hst with
  | give i hp =>
    have hold := h hsnap
    rw [hp] at hold
    exact hold i
  | answer a hp =>
    have hold := h hsnap
    rw [hp] at hold
    exact hold a
  | advance hadv =>
    cases hadv with
    | fail hp hq => trivial
    | @together β q k eff hp hq hb ha =>
      have hold := h fun q hq => hsnap q (List.mem_append_left _ hq)
      rw [hp] at hold
      exact hold sh.db (hsnap sh (List.mem_append_right _ (List.mem_singleton_self _))) _ eff hq
    | @single β q k eff hp hq hb ha =>
      rw [hauto] at ha
      cases ha
    | clock hp =>
      have hold := h hsnap
      rw [hp] at hold
      exact hold _
    | send hp =>
      have hold := h hsnap
      rw [hp] at hold
      exact hold

variable [DecidableEq σ.Row] {w : World σ}

/-- The rule for histories: a job that commits has ended with `Q`, if every database that it has
read had `φ`. -/
theorem Run.yields {jobs : σ.Job → Prop} {Q : σ.Job → σ.Result → List σ.Write → Prop}
    {start : Shared σ} {tr : List (Transition σ)}
    (hprog : ∀ j, jobs j → S.autocommit j = false ∧ (S.program j).Yields φ (Q j) [])
    (hr : Run S start tr w) {s : Session σ} (hs : s ∈ w.sessions.rows) (hj : jobs s.job)
    (hsnap : ∀ q ∈ s.txn.snapshots, φ q.db) {v : σ.Result} (hdone : s.prog = .done v) :
    Q s.job v s.txn.pending := by
  have hall : ∀ s ∈ w.sessions.rows, jobs s.job → s.Yields φ Q := by
    refine Run.sessions (I := fun s => jobs s.job → s.Yields φ Q) ?_ ?_ hr
    · intro i j hj _
      exact (hprog j hj).2
    · intro sh s t hst ih hj
      rw [hst.job_eq] at hj
      exact (ih hj).step (hprog s.job hj).1 hst
  have hyields := hall s hs hj hsnap
  rw [hdone] at hyields
  exact hyields

end

end ReadCommitted
