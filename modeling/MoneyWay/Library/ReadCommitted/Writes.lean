import MoneyWay.Library.ReadCommitted.Soundness

/-!
# What code can write

Code that only makes writes of a kind as long as the answers it gets are of a kind,
whatever its statements find in the database. A change of the database outside that kind is
then made by a session that has had another answer.
-/

set_option autoImplicit false

namespace ReadCommitted

open Keyed

section

variable {σ : Signature} {α β : Type} {φ : σ.Answer → Prop} {ψ : σ.Write → Prop}

/-- As long as every answer has `φ`, every write has `ψ`. -/
def Prog.Writes (φ : σ.Answer → Prop) (ψ : σ.Write → Prop) : Prog σ α → Prop
  | .done _ => True
  | .throw _ => True
  | .stmt q k => ∀ blocked d eff, q blocked d = .ok eff →
      (∀ w ∈ eff.writes, ψ w) ∧ (k eff.value).Writes φ ψ
  | .call _ k => ∀ a, φ a → (k a).Writes φ ψ
  | .await _ k => ∀ a, φ a → (k a).Writes φ ψ
  | .clock k => ∀ t, (k t).Writes φ ψ
  | .fresh k => ∀ i, (k i).Writes φ ψ

namespace Prog.Writes

theorem bind {p : Prog σ α} {f : α → Prog σ β} (hp : p.Writes φ ψ)
    (hf : ∀ a, (f a).Writes φ ψ) : (p >>= f).Writes φ ψ := by
  induction p with
  | done a => exact hf a
  | throw e => exact trivial
  | stmt q k ih =>
    intro blocked d eff hq
    obtain ⟨hws, hk⟩ := hp blocked d eff hq
    exact ⟨hws, ih _ hk⟩
  | call q k ih => exact fun a ha => ih a (hp a ha)
  | await q k ih => exact fun a ha => ih a (hp a ha)
  | clock k ih => exact fun t => ih t (hp t)
  | fresh k ih => exact fun i => ih i (hp i)

theorem exec {q : Stmt σ.Db σ.Write σ.Row σ.Error β}
    (h : ∀ blocked d eff, q blocked d = .ok eff → ∀ w ∈ eff.writes, ψ w) :
    (Prog.exec q : Prog σ β).Writes φ ψ := fun blocked d eff hq => ⟨h blocked d eff hq, trivial⟩

/-- Code whose first statement fails writes nothing. -/
theorem exec_bind_of_error {q : Stmt σ.Db σ.Write σ.Row σ.Error β} {f : β → Prog σ α}
    (h : ∀ blocked d eff, q blocked d ≠ .ok eff) : (Prog.exec q >>= f).Writes φ ψ :=
  fun blocked d eff hq => absurd hq (h blocked d eff)

theorem now {f : ℤ → Prog σ α} (h : ∀ t, (f t).Writes φ ψ) : (Prog.now >>= f).Writes φ ψ := h

end Prog.Writes

/-- What is left of the code of a session, and what it has not committed yet. -/
def Session.Writes (φ : σ.Answer → Prop) (ψ : σ.Write → Prop) (s : Session σ) : Prop :=
  (∀ c ∈ s.txn.calls, φ c.2) → s.prog.Writes φ ψ ∧ ∀ w ∈ s.txn.pending, ψ w

variable [Store σ.Db σ.Write σ.Row] {S : System σ}

/-- One operation of such a session. -/
theorem Session.Writes.advance {s t : Session σ} {blocked : σ.Row → LockMode → Bool}
    {sh sh' : Shared σ} (h : s.Writes φ ψ) (hadv : s.Advances S blocked sh sh' (some t)) :
    t.Writes φ ψ := by
  cases hadv with
  | fail hp hq => exact fun hcalls => ⟨trivial, (h hcalls).2⟩
  | together hp hq hb ha =>
    intro hcalls
    obtain ⟨hprog, hpending⟩ := h hcalls
    rw [hp] at hprog
    obtain ⟨hws, hk⟩ := hprog _ _ _ hq
    exact ⟨hk, List.forall_mem_append.mpr ⟨hpending, hws⟩⟩
  | single hp hq hb ha =>
    intro hcalls
    obtain ⟨hprog, hpending⟩ := h hcalls
    rw [hp] at hprog
    exact ⟨(hprog _ _ _ hq).2, hpending⟩
  | clock hp =>
    intro hcalls
    obtain ⟨hprog, hpending⟩ := h hcalls
    rw [hp] at hprog
    exact ⟨hprog _, hpending⟩
  | send hp =>
    intro hcalls
    obtain ⟨hprog, hpending⟩ := h hcalls
    rw [hp] at hprog
    exact ⟨hprog, hpending⟩

/-- The changes of the database by one operation of such a session. -/
theorem Session.Writes.change {s : Session σ} {t : Option (Session σ)}
    {blocked : σ.Row → LockMode → Bool} {sh sh' : Shared σ} (h : s.Writes φ ψ)
    (hcalls : ∀ c ∈ s.txn.calls, φ c.2) (hadv : s.Advances S blocked sh sh' t) :
    ∃ ws, sh'.db = replay ws sh.db ∧ ∀ w ∈ ws, ψ w := by
  obtain ⟨hprog, hpending⟩ := h hcalls
  cases hadv with
  | commit hp => exact ⟨s.txn.pending, rfl, hpending⟩
  | abort | fail | together | clock | send => exact ⟨[], rfl, by simp⟩
  | @single β q k eff hp hq hb ha =>
    rw [hp] at hprog
    exact ⟨eff.writes, rfl, (hprog _ _ _ hq).1⟩

/-- The step lemma: a session with such code keeps to it. -/
theorem Session.Writes.step {s t : Session σ} {sh : Shared σ} (h : s.Writes φ ψ)
    (hstep : s.Step S sh t) : t.Writes φ ψ := by
  cases hstep with
  | advance hadv => exact h.advance hadv
  | give i hp =>
    intro hcalls
    obtain ⟨hprog, hpending⟩ := h hcalls
    rw [hp] at hprog
    exact ⟨hprog i, hpending⟩
  | @answer _ q k a hp =>
    intro hcalls
    have hlast : φ a := hcalls (q, a) (List.mem_append_right _ List.mem_cons_self)
    obtain ⟨hprog, hpending⟩ := h fun c hc => hcalls c (List.mem_append_left _ hc)
    rw [hp] at hprog
    exact ⟨hprog a hlast, hpending⟩

variable [DecidableEq σ.Row]

/-- The run lemma. -/
theorem Run.sessions_writes {jobs : σ.Job → Prop} {start : Shared σ} {tr : List (Transition σ)}
    {w : World σ} (hprog : ∀ j, jobs j → (S.program j).Writes φ ψ) (hr : Run S start tr w) :
    ∀ s ∈ w.sessions.rows, jobs s.job → s.Writes φ ψ := by
  refine Run.sessions (I := fun s => jobs s.job → s.Writes φ ψ) ?_ ?_ hr
  · exact fun i j hj _ => ⟨hprog j hj, by simp⟩
  · intro sh s t hstep h hj
    exact (h (hstep.job_eq ▸ hj)).step hstep

/-- The rule for histories: what a session with such code changes in the database, while all
its answers have been of the kind. -/
theorem Run.writes {jobs : σ.Job → Prop} {start : Shared σ} {tr : List (Transition σ)}
    {w : World σ} (hprog : ∀ j, jobs j → (S.program j).Writes φ ψ) (hr : Run S start tr w)
    {x : Transition σ} (hx : x ∈ tr) {s : Session σ}
    (hs : x.before.sessions.find? s.id = some s) (ha : x.action = .run s.id) (hj : jobs s.job)
    (hcalls : ∀ c ∈ s.txn.calls, φ c.2) :
    ∃ ws, x.after.shared.db = replay ws x.before.shared.db ∧ ∀ w ∈ ws, ψ w := by
  obtain ⟨early, -, -, hr, hstep⟩ := hr.cut_of_mem hx
  rw [ha] at hstep
  simp only [World.step, hs, Option.bind_some] at hstep
  obtain ⟨r, hadv, he⟩ := Option.map_eq_some_iff.mp hstep
  obtain ⟨ws, hdb, hws⟩ :=
    (hr.sessions_writes hprog s (Table.mem_of_find? hs) hj).change hcalls (Session.advances hadv)
  refine ⟨ws, ?_, hws⟩
  rw [← he]
  obtain ⟨sh, _ | t⟩ := r <;> exact hdb

end

end ReadCommitted
