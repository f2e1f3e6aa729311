import MoneyWay.Library.ReadCommitted.Soundness

/-!
# Sessions one after the other

What the code of a session does when no other session is open. It ends with a value, with an
exception, or by the loss of its connection, and in between there may be events outside.

## Main definitions

- `Alone` — the code runs to an end
- `Ends` — a whole session: its transaction is committed or rolled back
- `Prog.play` — the same as a function of the answers and identifiers, without events

## Main results

- `Contract.Ok.alone` — what a contract says about the end
-/

set_option autoImplicit false

namespace ReadCommitted

open Keyed

section

variable {σ : Signature} [Store σ.Db σ.Write σ.Row]

/-- The code `p` with transaction `x` runs to the end `r`: a value, an exception, or `none` when
the connection is lost. -/
inductive Alone (S : System σ) {α : Type} :
    Prog σ α → Txn σ → Shared σ → Option (Except σ.Error α) → Txn σ → Shared σ → Prop
  | done {v : α} {x : Txn σ} {s : Shared σ} : Alone S (.done v) x s (some (.ok v)) x s
  | throw {e : σ.Error} {x : Txn σ} {s : Shared σ} : Alone S (.throw e) x s (some (.error e)) x s
  | lost {p : Prog σ α} {x : Txn σ} {s : Shared σ} : Alone S p x s none x s
  | fail {β : Type} {q : Stmt σ.Db σ.Write σ.Row σ.Error β} {k : β → Prog σ α} {e : σ.Error}
      {x : Txn σ} {s : Shared σ} : q (fun _ _ => false) (replay x.pending s.db) = .error e →
      Alone S (.stmt q k) x s (some (.error e)) x s
  | stmt {β : Type} {q : Stmt σ.Db σ.Write σ.Row σ.Error β} {k : β → Prog σ α}
      {eff : Effect σ.Write σ.Row β} {x x' : Txn σ} {s s' : Shared σ}
      {r : Option (Except σ.Error α)} :
      q (fun _ _ => false) (replay x.pending s.db) = .ok eff →
      Alone S (k eff.value) (x.executed s eff) s r x' s' → Alone S (.stmt q k) x s r x' s'
  | call {q : σ.Request} {k : σ.Answer → Prog σ α} {x x' : Txn σ} {s s' : Shared σ}
      {r : Option (Except σ.Error α)} :
      Alone S (.await q k) x ⟨s.db, S.send q s.ext⟩ r x' s' → Alone S (.call q k) x s r x' s'
  | answer {q : σ.Request} {k : σ.Answer → Prog σ α} {a : σ.Answer} {x x' : Txn σ}
      {s s' : Shared σ} {r : Option (Except σ.Error α)} :
      Alone S (k a) (x.answered q a) s r x' s' → Alone S (.await q k) x s r x' s'
  | clock {k : ℤ → Prog σ α} {x x' : Txn σ} {s s' : Shared σ} {r : Option (Except σ.Error α)} :
      Alone S (k (S.now s.ext)) x s r x' s' → Alone S (.clock k) x s r x' s'
  | fresh {k : σ.Ident → Prog σ α} {i : σ.Ident} {x x' : Txn σ} {s s' : Shared σ}
      {r : Option (Except σ.Error α)} :
      Alone S (k i) (x.given i) s r x' s' → Alone S (.fresh k) x s r x' s'
  | event {p : Prog σ α} {e : σ.Event} {y : σ.External} {x x' : Txn σ} {s s' : Shared σ}
      {r : Option (Except σ.Error α)} : S.event e s.ext = some y →
      Alone S p x ⟨s.db, y⟩ r x' s' → Alone S p x s r x' s'

/-- Nothing is committed before the end. -/
theorem Alone.db_eq {S : System σ} {α : Type} {p : Prog σ α} {x x' : Txn σ} {s s' : Shared σ}
    {r : Option (Except σ.Error α)} (h : Alone S p x s r x' s') : s'.db = s.db := by
  induction h with
  | done | throw | lost | fail => rfl
  | stmt _ _ ih | call _ ih | answer _ ih | clock _ ih | fresh _ ih | event _ _ ih => exact ih

/-- Events outside, one after the other. -/
def Passes (S : System σ) : σ.External → σ.External → Prop :=
  Relation.ReflTransGen fun y z => ∃ e, S.event e y = some z

/-- How code that reads the clock first goes on. -/
theorem Alone.clock_cases {S : System σ} {α : Type} {k : ℤ → Prog σ α} {x x' : Txn σ}
    {s s' : Shared σ} {r : Option (Except σ.Error α)} (h : Alone S (.clock k) x s r x' s') :
    ∃ y, Passes S s.ext y ∧ (r = none ∧ x' = x ∧ s' = ⟨s.db, y⟩ ∨
      Alone S (k (S.now y)) x ⟨s.db, y⟩ r x' s') := by
  generalize hp : Prog.clock k = p at h
  induction h with
  | done | throw | fail | stmt | call | answer | fresh => cases hp
  | lost => exact ⟨_, .refl, .inl ⟨rfl, rfl, rfl⟩⟩
  | clock h =>
    cases hp
    exact ⟨_, .refl, .inr h⟩
  | event he _ ih =>
    obtain ⟨y, hy, h⟩ := ih hp
    exact ⟨y, .head ⟨_, he⟩ hy, h⟩

/-- How code goes on that runs a statement first. -/
theorem Alone.stmt_cases {S : System σ} {α β : Type} {q : Stmt σ.Db σ.Write σ.Row σ.Error β}
    {k : β → Prog σ α} {x x' : Txn σ} {s s' : Shared σ} {r : Option (Except σ.Error α)}
    (h : Alone S (.stmt q k) x s r x' s') :
    x' = x ∧ (r = none ∨ ∃ e, r = some (.error e) ∧
        q (fun _ _ => false) (replay x.pending s.db) = .error e) ∨
      ∃ y eff, Passes S s.ext y ∧ q (fun _ _ => false) (replay x.pending s.db) = .ok eff ∧
        Alone S (k eff.value) (x.executed ⟨s.db, y⟩ eff) ⟨s.db, y⟩ r x' s' := by
  generalize hp : Prog.stmt q k = p at h
  induction h with
  | done | throw | clock | call | answer | fresh => cases hp
  | lost => exact .inl ⟨rfl, .inl rfl⟩
  | fail hq =>
    cases hp
    exact .inl ⟨rfl, .inr ⟨_, rfl, hq⟩⟩
  | stmt hq h =>
    cases hp
    exact .inr ⟨_, _, .refl, hq, h⟩
  | event he _ ih =>
    refine (ih hp).imp id ?_
    rintro ⟨y, eff, hy, hq, h⟩
    exact ⟨y, eff, .head ⟨_, he⟩ hy, hq, h⟩

theorem Alone.done_cases {S : System σ} {α : Type} {v : α} {x x' : Txn σ} {s s' : Shared σ}
    {r : Option (Except σ.Error α)} (h : Alone S (.done v) x s r x' s') :
    x' = x ∧ (r = none ∨ r = some (.ok v)) := by
  generalize hp : (Prog.done v : Prog σ α) = p at h
  induction h with
  | throw | fail | stmt | clock | call | answer | fresh => cases hp
  | done =>
    cases hp
    exact ⟨rfl, .inr rfl⟩
  | lost => exact ⟨rfl, .inl rfl⟩
  | event _ _ ih => exact ih hp

/-- What has been written stays written to the end. -/
theorem Alone.pending_prefix {S : System σ} {α : Type} {p : Prog σ α} {x x' : Txn σ}
    {s s' : Shared σ} {r : Option (Except σ.Error α)} (h : Alone S p x s r x' s') :
    x.pending <+: x'.pending := by
  induction h with
  | done | throw | lost | fail => exact List.prefix_refl _
  | stmt _ _ ih => exact (List.prefix_append _ _).trans ih
  | call _ ih | answer _ ih | clock _ ih | fresh _ ih | event _ _ ih => exact ih

theorem Alone.idents_prefix {S : System σ} {α : Type} {p : Prog σ α} {x x' : Txn σ}
    {s s' : Shared σ} {r : Option (Except σ.Error α)} (h : Alone S p x s r x' s') :
    x.idents <+: x'.idents := by
  induction h with
  | done | throw | lost | fail => exact List.prefix_refl _
  | fresh _ ih => exact (List.prefix_append _ _).trans ih
  | stmt _ _ ih | call _ ih | answer _ ih | clock _ ih | event _ _ ih => exact ih

/-- What is committed at the end. -/
def settled {α : Type} (r : Option (Except σ.Error α)) (x : Txn σ) (s : Shared σ) : Shared σ :=
  match r with
  | some (.ok _) => ⟨replay x.pending s.db, s.ext⟩
  | _ => s

/-- A session that runs alone from its start, and what it leaves. -/
inductive Ends (S : System σ) (j : σ.Job) (s : Shared σ) :
    Option (Except σ.Error σ.Result) → Txn σ → Shared σ → Prop
  | intro {r : Option (Except σ.Error σ.Result)} {x : Txn σ} {s' : Shared σ} :
      Alone S (S.program j) {} s r x s' → Ends S j s r x (settled r x s')

/-! ## Contracts -/

namespace Contract

variable {P : Contract σ} {S : System σ} {jobs : σ.Job → Prop}

/-- Code that meets a contract ends with what the contract says. -/
theorem Ok.alone (hv : P.Valid S jobs) {j : σ.Job} {p : Prog σ σ.Result} {x x' : Txn σ}
    {s s' : Shared σ} {r : Option (Except σ.Error σ.Result)} (ha : Alone S p x s r x' s')
    (h : P.Ok S j p x s) (hi : P.inv s) (hx : P.Past x s) :
    P.inv s' ∧ P.Leads s s' ∧ P.Past x' s' ∧ ∀ v, r = some (.ok v) → P.post j v x' s' := by
  induction ha with
  | done => exact ⟨hi, .refl _, hx, fun v hr => by cases hr; exact h _ (.refl hi)⟩
  | throw | lost | fail => exact ⟨hi, .refl _, hx, nofun⟩
  | @stmt β q k eff x x' s s' r hq _ ih =>
    refine ih (h s (.refl hi) _ eff hq).2 hi fun q hpast => ?_
    rcases List.mem_append.mp hpast with hpast | hpast
    · exact hx q hpast
    · obtain rfl := List.mem_singleton.mp hpast
      exact ⟨hi, .refl _⟩
  | call _ ih =>
    obtain ⟨-, hl, hk⟩ := h _ (.refl hi)
    obtain ⟨hi', hl', hrest⟩ := ih hk hl.inv' (hx.leads hl.leads)
    exact ⟨hi', hl.leads.trans hl', hrest⟩
  | answer _ ih => exact ih (h _) hi hx
  | clock _ ih => exact ih (h _ (.refl hi)) hi hx
  | fresh _ ih => exact ih (h _) hi hx
  | event he _ ih =>
    obtain ⟨hg, hi'⟩ := hv.event _ _ _ hi he
    have hl : P.Link _ _ := ⟨hi, hg, hi'⟩
    obtain ⟨hi'', hl', hrest⟩ := ih (h.later (later_of_ext hl)) hi' (hx.leads hl.leads)
    exact ⟨hi'', hl.leads.trans hl', hrest⟩

/-- What is known of a session that runs alone. -/
theorem Valid.ends (hv : P.Valid S jobs) {j : σ.Job} (hj : jobs j) (hauto : S.autocommit j = false)
    {s s' : Shared σ} {r : Option (Except σ.Error σ.Result)} {x : Txn σ} (h : Ends S j s r x s')
    (hi : P.inv s) :
    P.inv s' ∧ P.Leads s s' ∧ ∀ v, r = some (.ok v) → ∃ q, P.post j v x q ∧ q.db = s.db ∧
      s' = ⟨replay x.pending s.db, q.ext⟩ := by
  obtain ⟨ha⟩ := h
  have hok : P.Ok S j (S.program j) {} s := by
    simpa only [Meets, hauto, Bool.false_eq_true, if_false] using hv.program j hj s hi
  obtain ⟨hi', hl, hpast, hpost⟩ := hok.alone hv ha hi (by simp [Past])
  have hdb := ha.db_eq
  cases r with
  | none => exact ⟨hi', hl, fun v hr => by cases hr⟩
  | some r =>
    cases r with
    | error e => exact ⟨hi', hl, fun v hr => by cases hr⟩
    | ok v =>
      have hp := hpost v rfl
      obtain ⟨hg, hi''⟩ := hv.commit j v x _ hj hauto hi' hpast hp
      have hcommit : P.Link _ _ := ⟨hi', hg, hi''⟩
      refine ⟨hi'', hl.trans hcommit.leads, fun w hw => ?_⟩
      cases hw
      exact ⟨_, hp, hdb, by rw [settled, hdb]⟩

end Contract

/-! ## Histories -/

variable [DecidableEq σ.Row] {S : System σ}

namespace World

/-- The world with one session only. -/
def only (s : Shared σ) (t : Session σ) : World σ := ⟨s, (Table.empty _).put t⟩

omit [Store σ.Db σ.Write σ.Row] [DecidableEq σ.Row] in
@[simp] theorem find?_only (s : Shared σ) (t : Session σ) :
    (only s t).sessions.find? t.id = some t := Table.find?_put_self _ t

omit [Store σ.Db σ.Write σ.Row] [DecidableEq σ.Row] in
theorem put_only (s s' : Shared σ) {t t' : Session σ} (h : t'.id = t.id) :
    (⟨s', (only s t).sessions.put t'⟩ : World σ) = only s' t' := by
  simp [only, Table.put, Table.empty, putRow, h]

omit [Store σ.Db σ.Write σ.Row] [DecidableEq σ.Row] in
theorem erase_only (s s' : Shared σ) (t : Session σ) :
    (⟨s', (only s t).sessions.erase t.id⟩ : World σ) = idle s' := by
  simp [only, idle, Table.put, Table.empty, Table.erase, putRow]

omit [Store σ.Db σ.Write σ.Row] in
/-- Nobody is in the way of the only session. -/
theorem blocked_only (s : Shared σ) (t : Session σ) :
    (only s t).blocked t.id = fun _ _ => false := by
  funext r m
  simp [blocked, only, Table.put, Table.empty, putRow]

end World

/-- The operations of a session that runs alone, as actions of the system. None of them starts
a job. -/
theorem Alone.exists_steps {j : σ.Job} (hauto : S.autocommit j = false) {p : Prog σ σ.Result}
    {x x' : Txn σ} {s s' : Shared σ} {r : Option (Except σ.Error σ.Result)}
    (h : Alone S p x s r x' s') (i : ℕ) :
    ∃ as, (World.only s ⟨i, j, p, x⟩).steps S as = some (.idle (settled r x' s')) ∧
      ∀ a ∈ as, a.job? = none := by
  -- one operation, and what the rest does
  have hcons {p p' : Prog σ σ.Result} {x x₁ : Txn σ} {s s₁ : Shared σ} {w : World σ}
      (a : Action σ) (ha : (World.only s ⟨i, j, p, x⟩).step S a = some (.only s₁ ⟨i, j, p', x₁⟩))
      (hjob : a.job? = none) (h : ∃ as, (World.only s₁ ⟨i, j, p', x₁⟩).steps S as = some w ∧
        ∀ a ∈ as, a.job? = none) :
      ∃ as, (World.only s ⟨i, j, p, x⟩).steps S as = some w ∧ ∀ a ∈ as, a.job? = none := by
    obtain ⟨as, has, hjobs⟩ := h
    exact ⟨a :: as, by rw [World.steps, ha, Option.bind_some, has],
      List.forall_mem_cons.mpr ⟨hjob, hjobs⟩⟩
  have hrun {p : Prog σ σ.Result} {x : Txn σ} {s s₁ : Shared σ} {t : Option (Session σ)}
      (hadv : Session.advance S (fun _ _ => false) s ⟨i, j, p, x⟩ = some (s₁, t)) :
      (World.only s ⟨i, j, p, x⟩).step S (.run i) =
        some ((World.only s ⟨i, j, p, x⟩).settle i s₁ t) := by
    have hfind := World.find?_only s ⟨i, j, p, x⟩
    have hblocked := World.blocked_only s ⟨i, j, p, x⟩
    simp only [World.step, hfind, Option.bind_some]
    show (Session.advance S _ s _).map _ = _
    rw [hblocked, hadv]
    rfl
  have hput (s s₁ : Shared σ) (p p' : Prog σ σ.Result) (x x₁ : Txn σ) :
      (World.only s ⟨i, j, p, x⟩).settle i s₁ (some ⟨i, j, p', x₁⟩) =
        .only s₁ ⟨i, j, p', x₁⟩ := World.put_only s s₁ rfl
  have hend (s s₁ : Shared σ) (p : Prog σ σ.Result) (x : Txn σ) :
      (World.only s ⟨i, j, p, x⟩).settle i s₁ none = .idle s₁ := World.erase_only s s₁ _
  have hthrow (e : σ.Error) (x : Txn σ) (s : Shared σ) :
      (World.only s ⟨i, j, .throw e, x⟩).steps S [.run i] = some (.idle s) := by
    rw [World.steps, hrun rfl, hend]
    rfl
  induction h with
  | @done v x s =>
    refine ⟨[.run i], ?_, List.forall_mem_singleton.mpr rfl⟩
    rw [World.steps, hrun rfl, hend]
    rfl
  | @throw e x s => exact ⟨[.run i], hthrow e x s, List.forall_mem_singleton.mpr rfl⟩
  | @lost p x s =>
    refine ⟨[.rollback i], ?_, List.forall_mem_singleton.mpr rfl⟩
    have hfind := World.find?_only s ⟨i, j, p, x⟩
    simp only [World.steps, World.step, hfind, Option.map_some, Option.bind_some]
    exact congrArg some (World.erase_only s s ⟨i, j, p, x⟩)
  | @fail β q k e x s hq =>
    have hadv : Session.advance S (fun _ _ => false) s ⟨i, j, .stmt q k, x⟩ =
        some (s, some ⟨i, j, .throw e, x⟩) := by simp only [Session.advance, hq]
    refine hcons (.run i) ?_ rfl ⟨[.run i], hthrow e x s, List.forall_mem_singleton.mpr rfl⟩
    rw [hrun hadv, hput]
  | @stmt β q k eff x x' s s' r hq _ ih =>
    have hadv : Session.advance S (fun _ _ => false) s ⟨i, j, .stmt q k, x⟩ =
        some (s, some ⟨i, j, k eff.value, x.executed s eff⟩) := by
      simp [Session.advance, hq, hauto]
    refine hcons (.run i) ?_ rfl ih
    rw [hrun hadv, hput]
  | @call q k x x' s s' r _ ih =>
    refine hcons (.run i) ?_ rfl ih
    rw [hrun rfl, hput]
  | @answer q k a x x' s s' r _ ih =>
    refine hcons (.answer i a) ?_ rfl ih
    have hfind := World.find?_only s ⟨i, j, .await q k, x⟩
    simp only [World.step, hfind, Option.bind_some]
    exact congrArg some (World.put_only s s rfl)
  | @clock k x x' s s' r _ ih =>
    refine hcons (.run i) ?_ rfl ih
    rw [hrun rfl, hput]
  | @fresh k ident x x' s s' r _ ih =>
    refine hcons (.give i ident) ?_ rfl ih
    have hfind := World.find?_only s ⟨i, j, .fresh k, x⟩
    simp only [World.step, hfind, Option.bind_some]
    exact congrArg some (World.put_only s s rfl)
  | @event p e y x x' s s' r he _ ih =>
    refine hcons (.event e) ?_ rfl ih
    show (S.event e s.ext).map _ = _
    rw [he]
    rfl

end

/-! ## As a function -/

section

variable {σ : Signature} [Store σ.Db σ.Write σ.Row]

/-- The end of code that runs alone with the given answers and identifiers, `none` when there
are too few of them. -/
def Prog.play (S : System σ) {α : Type} :
    Prog σ α → List σ.Answer → List σ.Ident → Txn σ → Shared σ →
      Option (Except σ.Error α × Txn σ × Shared σ)
  | .done v, _, _, x, s => some (.ok v, x, s)
  | .throw e, _, _, x, s => some (.error e, x, s)
  | .stmt q k, as, is, x, s =>
    match q (fun _ _ => false) (replay x.pending s.db) with
    | .error e => some (.error e, x, s)
    | .ok eff => (k eff.value).play S as is (x.executed s eff) s
  | .call q k, as, is, x, s =>
    match as with
    | [] => none
    | a :: as => (k a).play S as is (x.answered q a) ⟨s.db, S.send q s.ext⟩
  | .await q k, as, is, x, s =>
    match as with
    | [] => none
    | a :: as => (k a).play S as is (x.answered q a) s
  | .clock k, as, is, x, s => (k (S.now s.ext)).play S as is x s
  | .fresh k, as, is, x, s =>
    match is with
    | [] => none
    | i :: is => (k i).play S as is (x.given i) s

theorem Prog.alone_of_play {S : System σ} {α : Type} {p : Prog σ α} {as : List σ.Answer}
    {is : List σ.Ident} {x x' : Txn σ} {s s' : Shared σ} {r : Except σ.Error α}
    (h : p.play S as is x s = some (r, x', s')) : Alone S p x s (some r) x' s' := by
  induction p generalizing as is x s with
  | done v =>
    cases h
    exact .done
  | throw e =>
    cases h
    exact .throw
  | stmt q k ih =>
    simp only [Prog.play] at h
    split at h
    · next e hq =>
      cases h
      exact .fail hq
    · next eff hq => exact .stmt hq (ih _ h)
  | call q k ih =>
    cases as with
    | nil => cases h
    | cons a as => exact .call (.answer (ih a h))
  | await q k ih =>
    cases as with
    | nil => cases h
    | cons a as => exact .answer (ih a h)
  | clock k ih => exact .clock (ih _ h)
  | fresh k ih =>
    cases is with
    | nil => cases h
    | cons i is => exact .fresh (ih i h)

end

end ReadCommitted
