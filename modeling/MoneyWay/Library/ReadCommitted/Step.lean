import MoneyWay.Library.ReadCommitted.System

/-!
# What a step does

The operations of a session and the actions of a world, one case each. A proof about a step
goes by these cases, and one about open sessions by `Run.sessions`.

## Main definitions

- `Session.Advances` — the ways a session can go on by itself
- `World.StepTo` — what each action does
- `Session.Step` — one operation of an open session

## Main results

- `World.stepTo` — a step is one of the cases
- `World.session_cases` — where an open session comes from
- `Run.sessions` — the induction over a history for what holds of each open session
-/

set_option autoImplicit false

namespace ReadCommitted

open Keyed

section

variable {σ : Signature}

@[simp] theorem World.settle_shared (w : World σ) (i : ℕ) (sh : Shared σ)
    (r : Option (Session σ)) : (w.settle i sh r).shared = sh := by
  cases r with
  | none => rfl
  | some t => rfl

/-- An open session after an operation of session `s`. -/
theorem World.mem_settle {w : World σ} {s t : Session σ} {sh : Shared σ} {r : Option (Session σ)}
    (ht : t ∈ (w.settle s.id sh r).sessions.rows)
    (hr : ∀ s' ∈ r, s'.id = s.id) : r = some t ∨ t ∈ w.sessions.rows ∧ t.id ≠ s.id := by
  cases r with
  | none => exact .inr (Table.mem_erase.mp ht)
  | some s' =>
    cases Table.mem_put.mp ht with
    | inl he => exact .inl (congrArg some he.symm)
    | inr hold => exact .inr ⟨hold.1, fun he => hold.2 (he.trans (hr s' rfl).symm)⟩

variable [Store σ.Db σ.Write σ.Row]

/-! ## Sessions -/

/-- The ways a session can go on by itself. -/
inductive Session.Advances (S : System σ) (blocked : σ.Row → LockMode → Bool) (sh : Shared σ)
    (s : Session σ) : Shared σ → Option (Session σ) → Prop
  | commit {v : σ.Result} : s.prog = .done v →
      s.Advances S blocked sh ⟨replay s.txn.pending sh.db, sh.ext⟩ none
  | abort {e : σ.Error} : s.prog = .throw e → s.Advances S blocked sh sh none
  | fail {β : Type} {q : Stmt σ.Db σ.Write σ.Row σ.Error β} {k : β → Prog σ σ.Result}
      {e : σ.Error} : s.prog = .stmt q k → q blocked (replay s.txn.pending sh.db) = .error e →
      s.Advances S blocked sh sh (some { s with prog := .throw e })
  | together {β : Type} {q : Stmt σ.Db σ.Write σ.Row σ.Error β} {k : β → Prog σ σ.Result}
      {eff : Effect σ.Write σ.Row β} : s.prog = .stmt q k →
      q blocked (replay s.txn.pending sh.db) = .ok eff →
      ((Effect.wanted eff).any fun l => blocked l.1 l.2) = false → S.autocommit s.job = false →
      s.Advances S blocked sh sh
        (some { s with prog := k eff.value, txn := s.txn.executed sh eff })
  | single {β : Type} {q : Stmt σ.Db σ.Write σ.Row σ.Error β} {k : β → Prog σ σ.Result}
      {eff : Effect σ.Write σ.Row β} : s.prog = .stmt q k →
      q blocked (replay s.txn.pending sh.db) = .ok eff →
      ((Effect.wanted eff).any fun l => blocked l.1 l.2) = false → S.autocommit s.job = true →
      s.Advances S blocked sh ⟨replay eff.writes sh.db, sh.ext⟩
        (some { s with prog := k eff.value, txn := s.txn.glanced sh })
  | clock {k : ℤ → Prog σ σ.Result} : s.prog = .clock k →
      s.Advances S blocked sh sh (some { s with prog := k (S.now sh.ext) })
  | send {q : σ.Request} {k : σ.Answer → Prog σ σ.Result} : s.prog = .call q k →
      s.Advances S blocked sh ⟨sh.db, S.send q sh.ext⟩ (some { s with prog := .await q k })

/-- An operation of a session replays writes on the database. -/
theorem Session.Advances.exists_replay {S : System σ} {blocked : σ.Row → LockMode → Bool}
    {sh sh' : Shared σ} {s : Session σ} {t : Option (Session σ)}
    (h : s.Advances S blocked sh sh' t) : ∃ ws, sh'.db = replay ws sh.db := by
  cases h with
  | commit => exact ⟨s.txn.pending, rfl⟩
  | @single β q k eff => exact ⟨eff.writes, rfl⟩
  | abort | fail | together | clock | send => exact ⟨[], rfl⟩

theorem Session.advances {S : System σ} {blocked : σ.Row → LockMode → Bool} {sh : Shared σ}
    {s : Session σ} {r : Shared σ × Option (Session σ)} (h : s.advance S blocked sh = some r) :
    s.Advances S blocked sh r.1 r.2 := by
  unfold Session.advance at h
  split at h
  case h_1 v hp => cases h; exact .commit hp
  case h_2 e hp => cases h; exact .abort hp
  case h_3 β q k hp =>
    split at h
    · next e hq => cases h; exact .fail hp hq
    · next eff hq =>
      split at h
      · cases h
      · next hb =>
        have hb := Bool.eq_false_iff.mpr hb
        split at h
        · next ha => cases h; exact .single hp hq hb ha
        · next ha => cases h; exact .together hp hq hb (Bool.eq_false_iff.mpr ha)
  case h_4 k hp => cases h; exact .clock hp
  case h_5 q k hp => cases h; exact .send hp
  case h_6 => cases h
  case h_7 => cases h

variable {S : System σ}

/-- A session goes on by itself in one way only. -/
theorem Session.Advances.advance_eq {blocked : σ.Row → LockMode → Bool} {sh sh' : Shared σ}
    {s : Session σ} {t : Option (Session σ)} (h : s.Advances S blocked sh sh' t) :
    s.advance S blocked sh = some (sh', t) := by
  unfold Session.advance
  cases h with
  | commit hp | abort hp | clock hp | send hp => rw [hp]
  | fail hp hq => simp only [hp, hq]
  | together hp hq hb ha | single hp hq hb ha =>
    simp only [hp, hq, hb, ha, Bool.false_eq_true, if_false, if_true]

/-- One operation of an open session after which it is still open. -/
inductive Session.Step (S : System σ) (sh : Shared σ) : Session σ → Session σ → Prop
  | advance {blocked : σ.Row → LockMode → Bool} {sh' : Shared σ} {s t : Session σ} :
      s.Advances S blocked sh sh' (some t) → Step S sh s t
  | give {s : Session σ} {k : σ.Ident → Prog σ σ.Result} (i : σ.Ident) : s.prog = .fresh k →
      Step S sh s { s with prog := k i, txn := s.txn.given i }
  | answer {s : Session σ} {q : σ.Request} {k : σ.Answer → Prog σ σ.Result} (a : σ.Answer) :
      s.prog = .await q k → Step S sh s { s with prog := k a, txn := s.txn.answered q a }

theorem Session.Step.id_eq {sh : Shared σ} {s t : Session σ} (h : s.Step S sh t) :
    t.id = s.id := by
  cases h with
  | advance hadv => cases hadv <;> rfl
  | give | answer => rfl

theorem Session.Step.job_eq {sh : Shared σ} {s t : Session σ} (h : s.Step S sh t) :
    t.job = s.job := by
  cases h with
  | advance hadv => cases hadv <;> rfl
  | give | answer => rfl

/-- A statement reads the state it runs in, and nothing else is read. -/
theorem Session.Step.snapshots {sh : Shared σ} {s t : Session σ} (h : s.Step S sh t) :
    t.txn.snapshots = s.txn.snapshots ∨ t.txn.snapshots = s.txn.snapshots ++ [sh] := by
  cases h with
  | advance hadv =>
    cases hadv with
    | together | single => exact .inr rfl
    | fail | clock | send => exact .inl rfl
  | give | answer => exact .inl rfl

/-! ## Worlds -/

variable [DecidableEq σ.Row] {w w' : World σ} {a : Action σ}

/-- What each action does. -/
inductive World.StepTo (S : System σ) (w : World σ) : Action σ → World σ → Prop
  | start {i : ℕ} {j : σ.Job} : w.sessions.find? i = none →
      w.StepTo S (.start i j) ⟨w.shared, w.sessions.put ⟨i, j, S.program j, {}⟩⟩
  | run {s : Session σ} {sh : Shared σ} {r : Option (Session σ)} :
      w.sessions.find? s.id = some s → s.advance S (w.blocked s.id) w.shared = some (sh, r) →
      w.StepTo S (.run s.id) (w.settle s.id sh r)
  | give {s : Session σ} {k : σ.Ident → Prog σ σ.Result} {i : σ.Ident} :
      w.sessions.find? s.id = some s → s.prog = .fresh k →
      w.StepTo S (.give s.id i)
        ⟨w.shared, w.sessions.put { s with prog := k i, txn := s.txn.given i }⟩
  | answer {s : Session σ} {q : σ.Request} {k : σ.Answer → Prog σ σ.Result} {b : σ.Answer} :
      w.sessions.find? s.id = some s → s.prog = .await q k →
      w.StepTo S (.answer s.id b)
        ⟨w.shared, w.sessions.put { s with prog := k b, txn := s.txn.answered q b }⟩
  | rollback {s : Session σ} : w.sessions.find? s.id = some s →
      w.StepTo S (.rollback s.id) ⟨w.shared, w.sessions.erase s.id⟩
  | event {e : σ.Event} {y : σ.External} : S.event e w.shared.ext = some y →
      w.StepTo S (.event e) ⟨⟨w.shared.db, y⟩, w.sessions⟩

theorem World.stepTo (h : w.step S a = some w') : w.StepTo S a w' := by
  cases a with
  | start i j =>
    simp only [World.step] at h
    split at h
    · next hfree =>
      cases h
      exact .start (Option.isNone_iff_eq_none.mp hfree)
    · cases h
  | run i =>
    obtain ⟨s, hs, h⟩ := Option.bind_eq_some_iff.mp h
    obtain ⟨r, hr, rfl⟩ := Option.map_eq_some_iff.mp h
    obtain rfl := Table.key_of_find? hs
    exact .run hs hr
  | give i b =>
    obtain ⟨s, hs, h⟩ := Option.bind_eq_some_iff.mp h
    split at h
    · next k hp =>
      cases h
      obtain rfl := Table.key_of_find? hs
      exact .give hs hp
    · cases h
  | answer i b =>
    obtain ⟨s, hs, h⟩ := Option.bind_eq_some_iff.mp h
    split at h
    · next q k hp =>
      cases h
      obtain rfl := Table.key_of_find? hs
      exact .answer hs hp
    · cases h
  | rollback i =>
    obtain ⟨s, hs, rfl⟩ := Option.map_eq_some_iff.mp h
    obtain rfl := Table.key_of_find? hs
    exact .rollback hs
  | event e =>
    obtain ⟨y, hy, rfl⟩ := Option.map_eq_some_iff.mp h
    exact .event hy

/-- Whatever happens, the database changes by writes. -/
theorem World.step_replay (h : w.step S a = some w') :
    ∃ ws, w'.shared.db = replay ws w.shared.db := by
  cases World.stepTo h with
  | run _ hadv =>
    rw [World.settle_shared]
    exact (Session.advances hadv).exists_replay
  | start | give | answer | rollback | event => exact ⟨[], rfl⟩

/-- An open session had no part in the last transition, was started by it, or has made an
operation. -/
theorem World.session_cases (h : w.step S a = some w') {t : Session σ}
    (ht : t ∈ w'.sessions.rows) :
    (t ∈ w.sessions.rows ∧ ∀ j, a ≠ .start t.id j) ∨
      (∃ j, a = .start t.id j ∧ t = ⟨t.id, j, S.program j, {}⟩) ∨
      ∃ s ∈ w.sessions.rows, s.Step S w.shared t ∧ ∀ i j, a ≠ .start i j := by
  cases World.stepTo h with
  | @start i j =>
    cases Table.mem_put.mp ht with
    | inl he =>
      rw [he]
      exact .inr (.inl ⟨j, rfl, rfl⟩)
    | inr hold =>
      refine .inl ⟨hold.1, fun j' he => hold.2 ?_⟩
      exact (Action.start.inj he).1.symm
  | @run s sh r hs hadv =>
    have hadv := Session.advances hadv
    have hid : ∀ s' ∈ r, s'.id = s.id := by
      rintro s' rfl
      cases hadv <;> rfl
    cases World.mem_settle ht hid with
    | inl he =>
      cases he
      exact .inr (.inr ⟨s, Table.mem_of_find? hs, .advance hadv, fun _ _ he => by cases he⟩)
    | inr hold => exact .inl ⟨hold.1, fun _ he => by cases he⟩
  | @give s k i hs hp =>
    cases Table.mem_put.mp ht with
    | inl he =>
      rw [he]
      exact .inr (.inr ⟨s, Table.mem_of_find? hs, .give i hp, fun _ _ he => by cases he⟩)
    | inr hold => exact .inl ⟨hold.1, fun _ he => by cases he⟩
  | @answer s q k b hs hp =>
    cases Table.mem_put.mp ht with
    | inl he =>
      rw [he]
      exact .inr (.inr ⟨s, Table.mem_of_find? hs, .answer b hp, fun _ _ he => by cases he⟩)
    | inr hold => exact .inl ⟨hold.1, fun _ he => by cases he⟩
  | rollback => exact .inl ⟨(Table.mem_erase.mp ht).1, fun _ he => by cases he⟩
  | event => exact .inl ⟨ht, fun _ he => by cases he⟩

/-- The induction over a history for what holds of each open session. -/
theorem Run.sessions {I : Session σ → Prop} {start : Shared σ} {tr : List (Transition σ)}
    (hstart : ∀ i j, I ⟨i, j, S.program j, {}⟩)
    (hstep : ∀ (sh : Shared σ) (s t : Session σ), s.Step S sh t → I s → I t)
    (hr : Run S start tr w) : ∀ s ∈ w.sessions.rows, I s := by
  induction hr with
  | nil => simp [World.idle, Table.empty]
  | snoc _ h ih =>
    intro t ht
    cases World.session_cases h ht with
    | inl hsame => exact ih t hsame.1
    | inr hrest =>
      cases hrest with
      | inl hnew =>
        obtain ⟨j, -, he⟩ := hnew
        rw [he]
        exact hstart t.id j
      | inr hmoved =>
        obtain ⟨s, hs, hst, -⟩ := hmoved
        exact hstep _ s t hst (ih s hs)

end

end ReadCommitted
