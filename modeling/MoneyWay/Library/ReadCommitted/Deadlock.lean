import MoneyWay.Library.ReadCommitted.Soundness

/-!
# Sessions that wait for each other

A session waits when the statement it is at needs a row that another session has locked. A
deadlock is a cycle of such sessions: each of them holds what the one before it needs, so
none of them ever goes on by itself.

## Main definitions

- `World.wants` — the locks the next statement of a session needs
- `Waits` — one session waits for a row that another one holds
- `Deadlocked` — there is a cycle of waiting sessions
- `Prog.Takes` — all locks that code may take are of a kind

## Main results

- `World.deadlocked_of_embraced` — two sessions that wait for each other
- `not_deadlocked_of_level` — the rule of ordered locking
- `Contract.Safe.ask_of_waits` — what a contract says of a session that waits
- `World.held_step` — where a lock comes from
-/

set_option autoImplicit false

namespace ReadCommitted

open Keyed Relation

section

variable {σ : Signature} [DecidableEq σ.Row] [Store σ.Db σ.Write σ.Row]

/-- The locks the next statement of a session needs. -/
def World.wants (w : World σ) (s : Session σ) : List (σ.Row × LockMode) :=
  match s.prog with
  | .stmt q _ =>
    match q (w.blocked s.id) (replay s.txn.pending w.shared.db) with
    | .ok eff => Effect.wanted eff
    | .error _ => []
  | _ => []

/-- Session `s` waits for row `r`, which session `t` has locked. -/
structure Waits (w : World σ) (s : Session σ) (r : σ.Row) (t : Session σ) : Prop where
  mem : s ∈ w.sessions.rows
  holder : t ∈ w.sessions.rows
  ne : s.id ≠ t.id
  conflict : ∃ m n, (r, m) ∈ w.wants s ∧ (r, n) ∈ t.txn.held ∧ n.conflicts m = true

/-- The same as a function, for one session and the other. -/
def World.waits (w : World σ) (s t : Session σ) : Bool :=
  decide (s.id ≠ t.id) &&
    (w.wants s).any fun l => t.txn.held.any fun h => decide (h.1 = l.1) && h.2.conflicts l.2

/-- There is a cycle of sessions each of which waits for a row that the next one holds. -/
def Deadlocked (w : World σ) : Prop := ∃ s, TransGen (fun s t => ∃ r, Waits w s r t) s s

variable {w w' : World σ} {s t u : Session σ} {r r' : σ.Row}

theorem World.exists_waits (hs : s ∈ w.sessions.rows) (ht : t ∈ w.sessions.rows)
    (h : w.waits s t = true) : ∃ r, Waits w s r t := by
  simp only [World.waits, Bool.and_eq_true, decide_eq_true_eq, List.any_eq_true] at h
  obtain ⟨hne, ⟨r, m⟩, hwant, ⟨r', n⟩, hheld, heq, hc⟩ := h
  have heq : r' = r := heq
  subst heq
  exact ⟨r', hs, ht, hne, m, n, hwant, hheld, hc⟩

/-- Two of the sessions wait for each other. -/
def World.embraced (w : World σ) : Bool :=
  w.sessions.rows.any fun s => w.sessions.rows.any fun t => w.waits s t && w.waits t s

theorem World.deadlocked_of_embraced (h : w.embraced = true) : Deadlocked w := by
  simp only [World.embraced, List.any_eq_true, Bool.and_eq_true] at h
  obtain ⟨s, hs, t, ht, hst, hts⟩ := h
  have hforth : ∃ r, Waits w s r t := World.exists_waits hs ht hst
  have hback : ∃ r, Waits w t r s := World.exists_waits ht hs hts
  exact ⟨s, .tail (.single hforth) hback⟩

/-- What is wanted is wanted by a statement. -/
theorem World.exists_stmt {l : σ.Row × LockMode} (h : l ∈ w.wants s) :
    ∃ (β : Type) (q : Stmt σ.Db σ.Write σ.Row σ.Error β) (k : β → Prog σ σ.Result)
      (eff : Effect σ.Write σ.Row β), s.prog = .stmt q k ∧
        q (w.blocked s.id) (replay s.txn.pending w.shared.db) = .ok eff ∧
        l ∈ Effect.wanted eff := by
  rw [World.wants] at h
  split at h
  · next β q k hp =>
    split at h
    · next eff hq => exact ⟨β, q, k, eff, hp, hq, h⟩
    · cases h
  · cases h

/-- A session that waits does not go on by itself. -/
theorem Waits.step_run_eq_none (h : Waits w s r t) (S : System σ) :
    w.step S (.run s.id) = none := by
  obtain ⟨m, n, hwant, hheld, hc⟩ := h.conflict
  obtain ⟨β, q, k, eff, hp, hq, hl⟩ := World.exists_stmt hwant
  have hblocked : w.blocked s.id r m = true := by
    simp only [World.blocked, List.any_eq_true, Bool.and_eq_true, decide_eq_true_eq]
    exact ⟨t, h.holder, h.ne.symm, (r, n), hheld, rfl, hc⟩
  have hany : ((Effect.wanted eff).any fun l => w.blocked s.id l.1 l.2) = true :=
    List.any_eq_true.mpr ⟨(r, m), hl, hblocked⟩
  have hadvance : s.advance S (w.blocked s.id) w.shared = none := by
    simp only [Session.advance, hp, hq, hany, if_true]
  rw [World.step, Table.find?_of_mem h.mem, Option.bind_some, hadvance]
  rfl

/-! ## Cycles -/

section

variable {α ι : Type*} {R : α → ι → α → Prop}

/-- Along a path of steps whose labels ascend the last label is not below the first. -/
theorem exists_ends_of_path (level : ι → ℕ)
    (hstep : ∀ a i b j c, R a i b → R b j c → level i < level j) {a b : α}
    (h : TransGen (fun a b => ∃ i, R a i b) a b) :
    ∃ i c d j, R a i c ∧ R d j b ∧ level i ≤ level j := by
  induction h with
  | single hab =>
    obtain ⟨i, hi⟩ := hab
    exact ⟨i, _, _, i, hi, hi, Nat.le_refl _⟩
  | tail _ hbc ih =>
    obtain ⟨i, c, d, j, hfirst, hlast, hle⟩ := ih
    obtain ⟨k, hk⟩ := hbc
    have hlt : level j < level k := hstep _ _ _ _ _ hlast hk
    exact ⟨i, c, _, k, hfirst, hk, by omega⟩

/-- Steps whose labels ascend do not lead back. -/
theorem not_cycle_of_level (level : ι → ℕ)
    (hstep : ∀ a i b j c, R a i b → R b j c → level i < level j) (a : α) :
    ¬ TransGen (fun a b => ∃ i, R a i b) a a := by
  intro h
  obtain ⟨i, c, d, j, hfirst, hlast, hle⟩ := exists_ends_of_path level hstep h
  have hlt : level j < level i := hstep _ _ _ _ _ hlast hfirst
  omega

/-- On a cycle every step ends where another one starts. -/
theorem cycle_within {E : α → α → Prop} {a : α} (h : TransGen E a a) :
    TransGen (fun a b => E a b ∧ ∃ c, E b c) a a := by
  obtain ⟨b, hab⟩ : ∃ b, E a b := by
    cases TransGen.head'_iff.mp h with
    | intro b hb => exact ⟨b, hb.1⟩
  have hpath : ∀ c, TransGen E a c → (∃ d, E c d) →
      TransGen (fun a b => E a b ∧ ∃ c, E b c) a c := by
    intro c hac
    induction hac with
    | single h => exact fun hc => .single ⟨h, hc⟩
    | tail _ h ih => exact fun hc => (ih ⟨_, h⟩).tail ⟨h, hc⟩
  exact hpath a h ⟨b, hab⟩

end

/-- The ordered locking rule: no deadlock, if whoever waits while another waits for it waits
for a row of a higher level. -/
theorem not_deadlocked_of_level (level : σ.Row → ℕ)
    (hstep : ∀ s r t r' u r'' v, Waits w s r t → Waits w t r' u → Waits w u r'' v →
      level r < level r') : ¬ Deadlocked w := by
  rintro ⟨s, hcycle⟩
  let R (s : Session σ) (r : σ.Row) (t : Session σ) : Prop :=
    Waits w s r t ∧ ∃ r' u, Waits w t r' u
  have hwithin : TransGen (fun s t => ∃ r, R s r t) s s := by
    refine TransGen.mono (fun a b h => ?_) s s (cycle_within hcycle)
    obtain ⟨⟨r, hr⟩, c, r', hr'⟩ := h
    exact ⟨r, hr, r', c, hr'⟩
  refine not_cycle_of_level level ?_ s hwithin
  rintro a r b r' c ⟨hab, -⟩ ⟨hbc, r'', d, hcd⟩
  exact hstep a r b r' c r'' d hab hbc hcd

/-! ## Where locks come from -/

/-- How code goes on after one operation. -/
inductive Prog.Next {α : Type} : Prog σ α → Prog σ α → Prop
  | stmt {β : Type} {q : Stmt σ.Db σ.Write σ.Row σ.Error β} {k : β → Prog σ α} (v : β) :
      Next (.stmt q k) (k v)
  | fail {β : Type} {q : Stmt σ.Db σ.Write σ.Row σ.Error β} {k : β → Prog σ α} (e : σ.Error) :
      Next (.stmt q k) (.throw e)
  | call {q : σ.Request} {k : σ.Answer → Prog σ α} : Next (.call q k) (.await q k)
  | await {q : σ.Request} {k : σ.Answer → Prog σ α} (a : σ.Answer) : Next (.await q k) (k a)
  | clock {k : ℤ → Prog σ α} (t : ℤ) : Next (.clock k) (k t)
  | fresh {k : σ.Ident → Prog σ α} (i : σ.Ident) : Next (.fresh k) (k i)

/-- A session after a step is one that had no part in it, a new one, or one that has made
one operation. -/
inductive Session.Origin (S : System σ) (w : World σ) (a : Action σ) (t : Session σ) : Prop
  | same : t ∈ w.sessions.rows → a ≠ .run t.id → Origin S w a t
  | started : t.prog = S.program t.job → t.txn = {} → Origin S w a t
  | moved {s : Session σ} : s ∈ w.sessions.rows → s.id = t.id → s.job = t.job →
      s.prog.Next t.prog →
      (t.txn.held = s.txn.held ∨ a = .run s.id ∧ t.txn.held = s.txn.held ++ w.wants s) →
      Origin S w a t

variable {S : System σ} {a : Action σ}

theorem Session.Advances.origin {sh : Shared σ} (hs : s ∈ w.sessions.rows)
    (h : s.Advances S (w.blocked s.id) w.shared sh (some t)) :
    t.Origin S w (.run s.id) := by
  cases h with
  | @fail β q k e hp hq =>
    refine .moved hs rfl rfl ?_ (.inl rfl)
    rw [hp]
    exact .fail e
  | @together β q k eff hp hq hb ha =>
    have hwants : w.wants s = Effect.wanted eff := by simp only [World.wants, hp, hq]
    refine .moved hs rfl rfl ?_ (.inr ⟨rfl, by rw [hwants]; rfl⟩)
    rw [hp]
    exact .stmt eff.value
  | @single β q k eff hp hq hb ha =>
    refine .moved hs rfl rfl ?_ (.inl rfl)
    rw [hp]
    exact .stmt eff.value
  | clock hp =>
    refine .moved hs rfl rfl ?_ (.inl rfl)
    rw [hp]
    exact .clock _
  | send hp =>
    refine .moved hs rfl rfl ?_ (.inl rfl)
    rw [hp]
    exact .call

/-- Every session after a step has an origin. -/
theorem World.step_origin (h : w.step S a = some w') (ht : t ∈ w'.sessions.rows) :
    t.Origin S w a := by
  have hput {s' : Session σ} (hs' : t ∈ (w.sessions.put s').rows) (hne : a ≠ .run t.id)
      (hmoved : s'.Origin S w a) : t.Origin S w a := by
    cases Table.mem_put.mp hs' with
    | inl he =>
      rw [he]
      exact hmoved
    | inr hold => exact .same hold.1 hne
  cases World.stepTo h with
  | start => exact hput ht (by simp) (.started rfl rfl)
  | @give s k i hs hp =>
    refine hput ht (by simp) (.moved (Table.mem_of_find? hs) rfl rfl ?_ (.inl rfl))
    rw [hp]
    exact .fresh i
  | @answer s q k b hs hp =>
    refine hput ht (by simp) (.moved (Table.mem_of_find? hs) rfl rfl ?_ (.inl rfl))
    rw [hp]
    exact .await b
  | rollback => exact .same (Table.mem_erase.mp ht).1 (by simp)
  | event => exact .same ht (by simp)
  | @run s sh r hs hr =>
    have hadv := Session.advances hr
    have hid : ∀ s' ∈ r, s'.id = s.id := by
      rintro s' rfl
      cases hadv <;> rfl
    cases World.mem_settle ht hid with
    | inl he =>
      cases he
      exact hadv.origin (Table.mem_of_find? hs)
    | inr hold => exact .same hold.1 fun he => hold.2 (Action.run.inj he).symm

/-- A session that goes on in its transaction has not changed the database. -/
theorem World.db_eq_of_goes_on (h : w.step S (.run t.id) = some w') (ht : t ∈ w'.sessions.rows)
    (hauto : S.autocommit t.job = false) : w'.shared.db = w.shared.db := by
  obtain ⟨s, hs, h⟩ := Option.bind_eq_some_iff.mp h
  obtain ⟨r, hr, rfl⟩ := Option.map_eq_some_iff.mp h
  have hadv := Session.advances hr
  obtain ⟨sh, _ | s'⟩ := r
  · exact absurd rfl (Table.mem_erase.mp ht).2
  · have hs' : s' = t := by
      have hid : s'.id = t.id := by
        rw [← Table.key_of_find? hs]
        cases hadv <;> rfl
      exact Table.eq_of_key (Table.mem_put.mpr (.inl rfl)) ht hid
    cases hadv with
    | @single β q k eff hp hq hb ha =>
      have hjob : s.job = t.job := by rw [← hs']
      rw [hjob, hauto] at ha
      cases ha
    | fail | together | clock | send => rfl

/-- A lock was held before the step or is taken by it. -/
theorem World.held_step (h : w.step S a = some w') (ht : t ∈ w'.sessions.rows)
    {l : σ.Row × LockMode} (hl : l ∈ t.txn.held) :
    ∃ s ∈ w.sessions.rows, s.id = t.id ∧ s.job = t.job ∧
      (l ∈ s.txn.held ∨ a = .run s.id ∧ l ∈ w.wants s) := by
  cases World.step_origin h ht with
  | same hs _ => exact ⟨t, hs, rfl, rfl, .inl hl⟩
  | started _ htxn =>
    rw [htxn] at hl
    cases hl
  | @moved s hs hid hjob _ hheld =>
    refine ⟨s, hs, hid, hjob, ?_⟩
    cases hheld with
    | inl heq => exact .inl (heq ▸ hl)
    | inr hrun =>
      obtain ⟨ha, heq⟩ := hrun
      rw [heq, List.mem_append] at hl
      exact hl.imp id fun hw => ⟨ha, hw⟩

end

/-! ### Kinds of locks -/

section

variable {σ : Signature} [Store σ.Db σ.Write σ.Row] {α β : Type} {p : σ.Row × LockMode → Prop}

/-- Every statement of the code needs locks with `p` only, whatever it finds. -/
def Prog.Takes (p : σ.Row × LockMode → Prop) : Prog σ α → Prop
  | .done _ => True
  | .throw _ => True
  | .stmt q k => (∀ blocked d eff, q blocked d = .ok eff → ∀ l ∈ Effect.wanted eff, p l) ∧
      ∀ v, (k v).Takes p
  | .call _ k => ∀ a, (k a).Takes p
  | .await _ k => ∀ a, (k a).Takes p
  | .clock k => ∀ t, (k t).Takes p
  | .fresh k => ∀ i, (k i).Takes p

namespace Prog.Takes

theorem bind {c : Prog σ α} {f : α → Prog σ β} (hc : c.Takes p) (hf : ∀ a, (f a).Takes p) :
    (c >>= f).Takes p := by
  induction c with
  | done a => exact hf a
  | throw e => trivial
  | stmt q k ih => exact ⟨hc.1, fun v => ih v (hc.2 v)⟩
  | call q k ih => exact fun a => ih a (hc a)
  | await q k ih => exact fun a => ih a (hc a)
  | clock k ih => exact fun t => ih t (hc t)
  | fresh k ih => exact fun i => ih i (hc i)

theorem exec {q : Stmt σ.Db σ.Write σ.Row σ.Error β}
    (h : ∀ blocked d eff, q blocked d = .ok eff → ∀ l ∈ Effect.wanted eff, p l) :
    (Prog.exec q : Prog σ β).Takes p := ⟨h, fun _ => trivial⟩

theorem now {f : ℤ → Prog σ α} (h : ∀ t, (f t).Takes p) : (Prog.now >>= f).Takes p := h

theorem ite {b : Prop} [Decidable b] {c d : Prog σ α} (hc : c.Takes p) (hd : d.Takes p) :
    (if b then c else d).Takes p := by
  split
  · exact hc
  · exact hd

theorem next {c c' : Prog σ α} (h : c.Takes p) (hn : c.Next c') : c'.Takes p := by
  cases hn with
  | stmt v => exact h.2 v
  | fail e => trivial
  | call => exact h
  | await a => exact h a
  | clock t => exact h t
  | fresh i => exact h i

end Prog.Takes

variable [DecidableEq σ.Row] {S : System σ} {w : World σ}

/-- What sessions with such code hold. -/
theorem Run.takes {jobs : σ.Job → Prop} {start : Shared σ} {tr : List (Transition σ)}
    (hprog : ∀ j, jobs j → (S.program j).Takes p) (hr : Run S start tr w) :
    ∀ s ∈ w.sessions.rows, jobs s.job → s.prog.Takes p ∧ ∀ l ∈ s.txn.held, p l := by
  induction hr with
  | nil =>
    intro s hs
    cases hs
  | @snoc tr w w' a _ hstep ih =>
    intro t ht hj
    cases World.step_origin hstep ht with
    | same hs _ => exact ih t hs hj
    | started hp htxn =>
      rw [hp, htxn]
      refine ⟨hprog _ hj, fun l hl => ?_⟩
      cases hl
    | @moved s hs _ hjob hnext hheld =>
      obtain ⟨htakes, hold⟩ := ih s hs (hjob ▸ hj)
      refine ⟨htakes.next hnext, fun l hl => ?_⟩
      cases hheld with
      | inl heq => exact hold l (heq ▸ hl)
      | inr hrun =>
        rw [hrun.2, List.mem_append] at hl
        cases hl with
        | inl hl => exact hold l hl
        | inr hl =>
          obtain ⟨β, q, k, eff, hp, hq, hwanted⟩ := World.exists_stmt hl
          rw [hp] at htakes
          exact htakes.1 _ _ _ hq l hwanted

end

/-! ## Under a contract -/

namespace Contract

variable {σ : Signature} [DecidableEq σ.Row] [Store σ.Db σ.Write σ.Row] {P : Contract σ}
  {S : System σ} {jobs : σ.Job → Prop} {w w' : World σ} {s t u : Session σ} {r r' : σ.Row}

/-- A session that another one waits for and that waits itself asks for a lock it does not
have. -/
theorem Safe.ask_of_waits (h : P.Safe S jobs w) (hst : Waits w s r t) (htu : Waits w t r' u) :
    S.autocommit t.job = false ∧ ∃ n, (r, n) ∈ t.txn.held ∧
      ∃ wanted m, P.ask t.job t.txn wanted w.shared ∧ (r', m) ∈ wanted ∧
        ∀ k, (r', k) ∈ t.txn.held → k.covers m = false := by
  obtain ⟨-, n, -, hheld, -⟩ := hst.conflict
  obtain ⟨m, n', hwant, hother, hconflict⟩ := htu.conflict
  obtain ⟨β, q, k, eff, hp, hq, hl⟩ := World.exists_stmt hwant
  have hmeets := h.meets t htu.mem
  have hauto : S.autocommit t.job = false := by
    by_contra hauto
    rw [Bool.not_eq_false] at hauto
    rw [Meets, if_pos hauto] at hmeets
    rw [hmeets.2.2] at hheld
    cases hheld
  refine ⟨hauto, n, hheld, _, m, hmeets.ask h.inv hauto hp hq, hl, fun k hk => ?_⟩
  by_contra hcovers
  rw [Bool.not_eq_false] at hcovers
  have hfree := h.exclusive u htu.holder t htu.mem htu.ne.symm _ hother _ hk rfl
  rw [LockMode.conflicts_of_covers hcovers hconflict] at hfree
  cases hfree

/-- What a session that has no part in a step may find after it. -/
theorem Safe.later_of_step (hv : P.Valid S jobs) (h : P.Safe S jobs w) {a : Action σ}
    (ha : w.step S a = some w') (ht : t ∈ w.sessions.rows) (hne : a ≠ .run t.id) :
    P.Later t.txn.held w.shared w'.shared := by
  cases World.stepTo ha with
  | start | give | answer | rollback => exact .refl h.inv
  | @event e x hx =>
    obtain ⟨hg, hi⟩ := hv.event e _ x h.inv hx
    exact later_of_ext ⟨h.inv, hg, hi⟩
  | @run s sh r hs hr =>
    have hs := Table.mem_of_find? hs
    have hts : t.id ≠ s.id := fun he => hne (by rw [he])
    have hadv : s.Advances S (w.blocked s.id) w.shared sh r := Session.advances hr
    have hlink := (h.advance hv hs hadv).2
    rw [World.settle_shared]
    cases hlink with
    | inl he =>
      rw [he]
      exact .refl h.inv
    | inr hl =>
      cases hadv with
      | commit => exact h.later_of_session hs hl ht hts
      | single hp hq hfree => exact later_of_statement hfree hl ht hts
      | send => exact later_of_ext hl
      | abort | fail | together | clock => exact .refl h.inv

end Contract

end ReadCommitted
