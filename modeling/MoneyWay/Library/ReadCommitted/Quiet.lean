import MoneyWay.Library.ReadCommitted.Soundness

/-!
# Sessions that raise nothing

Whether a statement fails may depend on rows other statements rely on, such as those a
foreign key refers to. Rows are never removed, so a property of the database that no
write takes away is enough: code whose statements do not fail where it holds raises
nothing, whatever the other sessions commit in between, as long as it gets answers that
it can deal with.
-/

set_option autoImplicit false

namespace ReadCommitted

open Keyed

section

variable {σ : Signature} {α β : Type} {φ : σ.Answer → Prop}

/-- As long as every answer has `φ`, no statement of the code fails where `I` holds, and the
code raises nothing itself. -/
def Prog.Quiet (φ : σ.Answer → Prop) (I : σ.Db → Prop) : Prog σ α → Prop
  | .done _ => True
  | .throw _ => False
  | .stmt q k => ∀ blocked d, I d → ∃ eff, q blocked d = .ok eff ∧ (k eff.value).Quiet φ I
  | .call _ k => ∀ a, φ a → (k a).Quiet φ I
  | .await _ k => ∀ a, φ a → (k a).Quiet φ I
  | .clock k => ∀ t, (k t).Quiet φ I
  | .fresh k => ∀ i, (k i).Quiet φ I

theorem Prog.Quiet.bind {I : σ.Db → Prop} {p : Prog σ α} {f : α → Prog σ β} (hp : p.Quiet φ I)
    (hf : ∀ a, (f a).Quiet φ I) : (p >>= f).Quiet φ I := by
  induction p with
  | done a => exact hf a
  | throw e => exact hp.elim
  | stmt q k ih =>
    intro blocked d hd
    obtain ⟨eff, hq, hk⟩ := hp blocked d hd
    exact ⟨eff, hq, ih _ hk⟩
  | call q k ih => exact fun a ha => ih a (hp a ha)
  | await q k ih => exact fun a ha => ih a (hp a ha)
  | clock k ih => exact fun t => ih t (hp t)
  | fresh k ih => exact fun i => ih i (hp i)

variable [Store σ.Db σ.Write σ.Row]

/-- No write takes the property away. -/
def Lasting (I : σ.Db → Prop) : Prop := ∀ (ws : List σ.Write) d, I d → I (replay ws d)

/-- The first statement of the code does not fail on this database, and what it finds
there is enough for the rest. -/
def Prog.Begins (φ : σ.Answer → Prop) (d : σ.Db) : Prog σ α → Prop
  | .stmt q k => ∀ blocked, ∃ eff, q blocked d = .ok eff ∧
      ∃ I, Lasting I ∧ I d ∧ (k eff.value).Quiet φ I
  | .clock k => ∀ t, (k t).Begins φ d
  | _ => False

/-- The transition is the end of session `s`, by a value or by an exception. -/
structure Transition.Ends (x : Transition σ) (s : Session σ) : Prop where
  session : x.before.sessions.find? s.id = some s
  action : x.action = .run s.id
  ended : (∃ v, s.prog = .done v) ∨ ∃ e, s.prog = .throw e

omit [Store σ.Db σ.Write σ.Row] in
/-- A session that has raised nothing ends by its commit. -/
theorem Transition.Ends.commits {x : Transition σ} {s : Session σ} (h : x.Ends s)
    (hquiet : ∀ e, s.prog ≠ .throw e) : ∃ v, x.Commits s v := by
  obtain ⟨hs, ha, ⟨v, hv⟩ | ⟨e, he⟩⟩ := h
  · exact ⟨v, hs, ha, hv⟩
  · exact absurd he (hquiet e)

/-- As long as its answers have `φ`, the session is at its first statement, or before it, or it
will raise nothing. `J` is known of the databases in which it may begin. -/
def Session.Sure (φ : σ.Answer → Prop) (J : σ.Db → Prop) (s : Session σ) (d : σ.Db) : Prop :=
  (∀ c ∈ s.txn.calls, φ c.2) →
    (∀ d, J d → s.prog.Begins φ d) ∧ s.txn.pending = [] ∨ ∃ I, Lasting I ∧ I d ∧ s.prog.Quiet φ I

variable {J : σ.Db → Prop}

theorem Session.Sure.replay {s : Session σ} {d : σ.Db} (h : s.Sure φ J d) (ws : List σ.Write) :
    s.Sure φ J (replay ws d) := by
  intro hcalls
  rcases h hcalls with h | ⟨I, hI, hd, hq⟩
  · exact .inl h
  · exact .inr ⟨I, hI, hI ws d hd, hq⟩

/-- A statement of such a session does not fail. -/
theorem Session.Sure.stmt {s : Session σ} {d : σ.Db} (h : s.Sure φ J d)
    (hcalls : ∀ c ∈ s.txn.calls, φ c.2) (hd : J d) {q : Stmt σ.Db σ.Write σ.Row σ.Error β}
    {k : β → Prog σ σ.Result} (hp : s.prog = .stmt q k) (blocked : σ.Row → LockMode → Bool) :
    ∃ eff, q blocked (ReadCommitted.replay s.txn.pending d) = .ok eff ∧
      ∃ I, Lasting I ∧ I d ∧ (k eff.value).Quiet φ I := by
  rcases h hcalls with ⟨hbegin, hpend⟩ | ⟨I, hI, hd, hquiet⟩
  · have hbegin := hbegin d hd
    rw [hp] at hbegin
    rw [hpend]
    exact hbegin blocked
  · rw [hp] at hquiet
    obtain ⟨eff, hq, hk⟩ := hquiet blocked _ (hI _ _ hd)
    exact ⟨eff, hq, I, hI, hd, hk⟩

/-- One that is neither at a statement nor at the clock has begun. -/
theorem Session.Sure.begun {s : Session σ} {d : σ.Db} (h : s.Sure φ J d)
    (hcalls : ∀ c ∈ s.txn.calls, φ c.2) (hd : J d)
    (hp : ∀ {γ : Type} (q : Stmt σ.Db σ.Write σ.Row σ.Error γ) k, s.prog ≠ .stmt q k)
    (hclock : ∀ k, s.prog ≠ .clock k) : ∃ I, Lasting I ∧ I d ∧ s.prog.Quiet φ I := by
  rcases h hcalls with ⟨hbegin, -⟩ | h
  · have hbegin := hbegin d hd
    generalize s.prog = p at hbegin hp hclock
    cases p with
    | stmt q k => exact absurd rfl (hp q k)
    | clock k => exact absurd rfl (hclock k)
    | _ => exact hbegin.elim
  · exact h

variable {S : System σ}

/-- One operation of such a session. -/
theorem Session.Sure.step {s t : Session σ} {sh : Shared σ} (h : s.Sure φ J sh.db) (hd : J sh.db)
    (hstep : s.Step S sh t) : t.Sure φ J sh.db := by
  cases hstep with
  | advance hadv =>
    cases hadv with
    | fail hp hq =>
      intro hcalls
      obtain ⟨eff, hok, -⟩ := h.stmt hcalls hd hp _
      rw [hok] at hq
      cases hq
    | together hp hq | single hp hq =>
      intro hcalls
      obtain ⟨eff, hok, I, hI, hd, hk⟩ := h.stmt hcalls hd hp _
      rw [hok] at hq
      cases hq
      exact .inr ⟨I, hI, hd, hk⟩
    | clock hp =>
      intro hcalls
      rcases h hcalls with ⟨hbegin, hpend⟩ | ⟨I, hI, hd, hquiet⟩
      · rw [hp] at hbegin
        exact .inl ⟨fun d hd => hbegin d hd _, hpend⟩
      · rw [hp] at hquiet
        exact .inr ⟨I, hI, hd, hquiet _⟩
    | send hp =>
      intro hcalls
      obtain ⟨I, hI, hd, hquiet⟩ := h.begun hcalls hd (by simp [hp]) (by simp [hp])
      rw [hp] at hquiet
      exact .inr ⟨I, hI, hd, hquiet⟩
  | give i hp =>
    intro hcalls
    obtain ⟨I, hI, hd, hquiet⟩ := h.begun hcalls hd (by simp [hp]) (by simp [hp])
    rw [hp] at hquiet
    exact .inr ⟨I, hI, hd, hquiet i⟩
  | @answer _ q k a hp =>
    intro hcalls
    have hlast : φ a := hcalls (q, a) (List.mem_append_right _ List.mem_cons_self)
    obtain ⟨I, hI, hd, hquiet⟩ := h.begun (fun c hc => hcalls c (List.mem_append_left _ hc)) hd
      (by simp [hp]) (by simp [hp])
    rw [hp] at hquiet
    exact .inr ⟨I, hI, hd, hquiet a hlast⟩

/-- A session that will raise nothing has raised nothing. -/
theorem Session.Sure.prog_ne_throw {s : Session σ} {d : σ.Db} (h : s.Sure φ J d) (hd : J d)
    (hcalls : ∀ c ∈ s.txn.calls, φ c.2) (e : σ.Error) : s.prog ≠ .throw e := by
  intro hp
  obtain ⟨I, -, -, hquiet⟩ := h.begun hcalls hd (by simp [hp]) (by simp [hp])
  rw [hp] at hquiet
  exact hquiet

variable [DecidableEq σ.Row]

/-- A session that ends by an exception leaves everything as it was. -/
theorem Run.shared_eq_of_throw {start : Shared σ} {tr : List (Transition σ)} {w : World σ}
    (hr : Run S start tr w) {x : Transition σ} (hx : x ∈ tr) {s : Session σ} (h : x.Ends s)
    {e : σ.Error} (hp : s.prog = .throw e) : x.after.shared = x.before.shared := by
  obtain ⟨early, -, -, -, hstep⟩ := hr.cut_of_mem hx
  rw [h.action] at hstep
  simp only [World.step, h.session, Option.bind_some, Session.advance, hp, Option.map_some,
    Option.some.injEq] at hstep
  rw [← hstep]
  rfl

/-- In every history, the sessions of jobs whose code begins well in every state reached
raise nothing as long as their answers have `φ`. -/
theorem Run.sure {start : Shared σ} {jobs kind : σ.Job → Prop}
    (hstate : ∀ tr w, Run S start tr w → Contract.Starts jobs tr → J w.shared.db)
    (hbegin : ∀ d, J d → ∀ j, kind j → (S.program j).Begins φ d)
    {tr : List (Transition σ)} {w : World σ} (hr : Run S start tr w)
    (hj : Contract.Starts jobs tr) :
    ∀ s ∈ w.sessions.rows, kind s.job → s.Sure φ J w.shared.db := by
  induction hr with
  | nil => simp [World.idle, Table.empty]
  | @snoc tr w w' a hr hstep ih =>
    have hj' : Contract.Starts jobs tr := fun x hx => hj x (List.mem_cons_of_mem _ hx)
    have ih := ih hj'
    -- whatever is committed meanwhile, a session stays sure
    obtain ⟨ws, hws⟩ := World.step_replay hstep
    intro t ht hk
    rw [hws]
    cases World.session_cases hstep ht with
    | inl hsame => exact (ih t hsame.1 hk).replay ws
    | inr hrest =>
      cases hrest with
      | inl hnew =>
        obtain ⟨j, -, he⟩ := hnew
        rw [he] at hk ⊢
        exact fun _ => .inl ⟨fun d hd => hbegin d hd j hk, rfl⟩
      | inr hmoved =>
        obtain ⟨s, hs, hst, -⟩ := hmoved
        rw [hst.job_eq] at hk
        exact ((ih s hs hk).step (hstate tr w hr hj') hst).replay ws

end

end ReadCommitted
