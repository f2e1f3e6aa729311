import MoneyWay.Library.ReadCommitted.Deadlock
import MoneyWay.Library.ReadCommitted.Sending

/-!
# What a session holds while it waits

A session keeps its locks across the calls it makes. So what its transaction has come to is kept
by its code, and the rows it has locked are as one of its statements has read them.

## Main definitions

- `Prog.Keeps` — what the code keeps of its transaction, and knows of it at a request
- `Session.HasSent` — an open session has sent a request

## Main results

- `Run.keeps` — the rule for the sessions of a history
- `Contract.Valid.held_rows` — a locked row is as the session has read it
-/

set_option autoImplicit false

namespace ReadCommitted

open Keyed

section

variable {σ : Signature} [Store σ.Db σ.Write σ.Row] {α β : Type}

/-- Whatever its statements find and its calls answer, the transaction has `C` at each request,
`I` after each operation and `Q` at the end. -/
def Prog.Keeps (C : σ.Request → Txn σ → Prop) (I : Txn σ → Prop) (Q : α → Txn σ → Prop) :
    Prog σ α → Txn σ → Prop
  | .done v, x => Q v x
  | .throw _, _ => True
  | .stmt q k, x => ∀ (s : Shared σ) blocked eff, q blocked (replay x.pending s.db) = .ok eff →
      I (x.executed s eff) ∧ (k eff.value).Keeps C I Q (x.executed s eff)
  | .call q k, x => C q x ∧ ∀ a, I (x.answered q a) ∧ (k a).Keeps C I Q (x.answered q a)
  | .await q k, x => C q x ∧ ∀ a, I (x.answered q a) ∧ (k a).Keeps C I Q (x.answered q a)
  | .clock k, x => ∀ t, (k t).Keeps C I Q x
  | .fresh k, x => ∀ i, I (x.given i) ∧ (k i).Keeps C I Q (x.given i)

namespace Prog.Keeps

variable {C : σ.Request → Txn σ → Prop} {I : Txn σ → Prop} {Q : α → Txn σ → Prop} {x : Txn σ}

theorem bind {R : β → Txn σ → Prop} {p : Prog σ α} {f : α → Prog σ β}
    (h : p.Keeps C I (fun v x => (f v).Keeps C I R x) x) : (p >>= f).Keeps C I R x := by
  induction p generalizing x with
  | done v => exact h
  | throw e => exact trivial
  | stmt q k ih => exact fun s b eff hq => ⟨(h s b eff hq).1, ih _ (h s b eff hq).2⟩
  | call q k ih => exact ⟨h.1, fun a => ⟨(h.2 a).1, ih a (h.2 a).2⟩⟩
  | await q k ih => exact ⟨h.1, fun a => ⟨(h.2 a).1, ih a (h.2 a).2⟩⟩
  | clock k ih => exact fun t => ih t (h t)
  | fresh k ih => exact fun i => ⟨(h i).1, ih i (h i).2⟩

theorem exec {q : Stmt σ.Db σ.Write σ.Row σ.Error α}
    (h : ∀ (s : Shared σ) blocked eff, q blocked (replay x.pending s.db) = .ok eff →
      I (x.executed s eff) ∧ Q eff.value (x.executed s eff)) :
    (Prog.exec q : Prog σ α).Keeps C I Q x := h

theorem now {f : ℤ → Prog σ α} (h : ∀ t, (f t).Keeps C I Q x) :
    (Prog.now >>= f).Keeps C I Q x := h

/-- Code that sends nothing keeps what its statements keep. -/
theorem of_silent {p : Prog σ α} (hp : p.Silent)
    (hexec : ∀ {β : Type} (x : Txn σ) (s : Shared σ) (eff : Effect σ.Write σ.Row β),
      I x → I (x.executed s eff)) (hgiven : ∀ (x : Txn σ) i, I x → I (x.given i))
    (hQ : ∀ v x, I x → Q v x) (hx : I x) : p.Keeps C I Q x := by
  induction p generalizing x with
  | done v => exact hQ v x hx
  | throw e => exact trivial
  | stmt q k ih =>
    exact fun s b eff _ => ⟨hexec x s eff hx, ih _ (hp _) (hexec x s eff hx)⟩
  | call q k ih => exact hp.elim
  | await q k ih => exact hp.elim
  | clock k ih => exact fun t => ih t (hp t) hx
  | fresh k ih => exact fun i => ⟨hgiven x i hx, ih i (hp i) (hgiven x i hx)⟩

end Prog.Keeps

/-- An open session has sent the request, whether it has been answered or not. -/
def Session.HasSent (s : Session σ) (q : σ.Request) : Prop :=
  (∃ a, (q, a) ∈ s.txn.calls) ∨ ∃ k, s.prog = .await q k

variable [DecidableEq σ.Row] {S : System σ} {start : Shared σ} {tr : List (Transition σ)}
  {w : World σ}

/-- The rule for histories. -/
theorem Run.keeps {C : σ.Request → Txn σ → Prop} {I : Txn σ → Prop}
    (hprog : ∀ j, S.autocommit j = false → (S.program j).Keeps C I (fun _ _ => True) {})
    (hnew : I {}) (hr : Run S start tr w) :
    ∀ s ∈ w.sessions.rows, S.autocommit s.job = false →
      I s.txn ∧ s.prog.Keeps C I (fun _ _ => True) s.txn := by
  refine Run.sessions (I := fun s => S.autocommit s.job = false →
    I s.txn ∧ s.prog.Keeps C I (fun _ _ => True) s.txn) (fun i j ha => ⟨hnew, hprog j ha⟩) ?_ hr
  intro sh s t hstep hs ha
  rw [hstep.job_eq] at ha
  obtain ⟨hI, hkeeps⟩ := hs ha
  cases hstep with
  | give i hp =>
    rw [hp] at hkeeps
    exact hkeeps i
  | answer a hp =>
    rw [hp] at hkeeps
    exact hkeeps.2 a
  | advance hadv =>
    cases hadv with
    | fail hp hq => exact ⟨hI, trivial⟩
    | together hp hq =>
      rw [hp] at hkeeps
      exact hkeeps sh _ _ hq
    | single hp hq hb hauto =>
      rw [ha] at hauto
      cases hauto
    | clock hp =>
      rw [hp] at hkeeps
      exact ⟨hI, hkeeps _⟩
    | send hp =>
      rw [hp] at hkeeps
      exact ⟨hI, hkeeps⟩

namespace Contract

variable {P : Contract σ} {jobs : σ.Job → Prop}

/-- A row that a session has locked is as one of its statements has read it. -/
theorem Valid.held_rows (hv : P.Valid S jobs) (hi : P.inv start) (hr : Run S start tr w)
    (hj : Starts jobs tr) :
    ∀ s ∈ w.sessions.rows, S.autocommit s.job = false → ∀ r m, (r, m) ∈ s.txn.held →
      m.protects = true →
      ∃ p ∈ s.txn.snapshots, Store.row r p.db = Store.row r w.shared.db := by
  induction hr with
  | nil => simp [World.idle, Table.empty]
  | @snoc tr w w' a hr hstep ih =>
    have hearly : Starts jobs tr := fun x hx => hj x (List.mem_cons_of_mem _ hx)
    have hsafe := hv.run hi hr hearly
    intro t ht hauto r m hl hm
    -- the step leaves the row alone, whoever makes it
    have hrow : Store.row r w'.shared.db = Store.row r w.shared.db := by
      by_cases ha : a = .run t.id
      · rw [ha] at hstep
        rw [World.db_eq_of_goes_on hstep ht hauto]
      · obtain ⟨s, hs, hid, -, hheld | ⟨hrun, -⟩⟩ := World.held_step hstep ht hl
        · exact (hsafe.later_of_step hv hstep hs (hid ▸ ha)).rows r m hheld hm
        · exact absurd (hid ▸ hrun) ha
    rw [hrow]
    rcases World.session_cases hstep ht with ⟨hold, -⟩ | ⟨j, -, he⟩ | ⟨s, hs, hst, -⟩
    · exact ih hearly t hold hauto r m hl hm
    · rw [he] at hl
      cases hl
    · have hauto : S.autocommit s.job = false := hst.job_eq ▸ hauto
      have hold (hl : (r, m) ∈ s.txn.held) := ih hearly s hs hauto r m hl hm
      cases hst with
      | give | answer => exact hold hl
      | advance hadv =>
        cases hadv with
        | fail | clock | send => exact hold hl
        | single hp hq hb ha =>
          rw [hauto] at ha
          cases ha
        | together =>
          rcases List.mem_append.mp hl with hl | -
          · obtain ⟨p, hp, he⟩ := hold hl
            exact ⟨p, List.mem_append_left _ hp, he⟩
          · exact ⟨w.shared, by simp [Txn.executed], rfl⟩

end Contract

end

end ReadCommitted
