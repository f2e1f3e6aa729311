import MoneyWay.Library.KeyedTable
import MoneyWay.Library.ReadCommitted.Program

/-!
# Sessions running side by side

A world is the committed database, the state outside of it and the open
sessions. A session keeps its uncommitted writes to itself: it sees the committed
database with its own writes on top, statement by statement, and the others see
them only once it commits. Row locks are held to the end of the transaction, and
a statement that needs a row locked by another session cannot run.

## Main definitions

- `Session` — a job, what is left of its code and its open transaction
- `World.step` — one operation of one session, or an event outside
- `Run` — the histories of a system, newest transition first
-/

set_option autoImplicit false

namespace ReadCommitted

open Keyed

/-- What all sessions share: the committed database and the world outside it. -/
structure Shared (σ : Signature) where
  db : σ.Db
  ext : σ.External

/-- An open transaction. `snapshots` are the shared states its statements have
read, oldest first, `calls` the answered requests and `idents` the fresh identifiers it
has been given. -/
structure Txn (σ : Signature) where
  pending : List σ.Write := []
  held : List (σ.Row × LockMode) := []
  snapshots : List (Shared σ) := []
  calls : List (σ.Request × σ.Answer) := []
  idents : List σ.Ident := []

structure Session (σ : Signature) where
  id : ℕ
  job : σ.Job
  prog : Prog σ σ.Result
  txn : Txn σ

structure World (σ : Signature) where
  shared : Shared σ
  sessions : Table (Session.id (σ := σ))

/-- What a system adds to its types: the code of each job, whether its statements
commit one by one, what sending a request does outside, the clock, and what may
happen outside on its own. -/
structure System (σ : Signature) where
  program : σ.Job → Prog σ σ.Result
  autocommit : σ.Job → Bool
  send : σ.Request → σ.External → σ.External
  now : σ.External → ℤ
  event : σ.Event → σ.External → Option σ.External

inductive Action (σ : Signature) where
  | start (i : ℕ) (job : σ.Job)
  | run (i : ℕ)
  | give (i : ℕ) (ident : σ.Ident)
  | answer (i : ℕ) (a : σ.Answer)
  | rollback (i : ℕ)
  | event (e : σ.Event)

/-- The job an action starts. -/
def Action.job? {σ : Signature} : Action σ → Option σ.Job
  | .start _ j => some j
  | _ => none

structure Transition (σ : Signature) where
  before : World σ
  action : Action σ
  after : World σ

/-- The transition is the commit of session `s` with result `v`. -/
def Transition.Commits {σ : Signature} (x : Transition σ) (s : Session σ) (v : σ.Result) : Prop :=
  x.before.sessions.find? s.id = some s ∧ x.action = .run s.id ∧ s.prog = .done v

/-- It is the session that runs which commits. -/
theorem Transition.Commits.eq_of_run {σ : Signature} {x : Transition σ} {s t : Session σ}
    {v : σ.Result} (h : x.Commits t v) (hs : x.before.sessions.find? s.id = some s)
    (ha : x.action = .run s.id) : t = s := by
  obtain ⟨hfind, hact, -⟩ := h
  have hid : t.id = s.id := Action.run.inj (hact.symm.trans ha)
  rw [hid, hs] at hfind
  exact (Option.some.inj hfind).symm

/-- The session that commits. -/
def Transition.commit? {σ : Signature} (x : Transition σ) : Option (Session σ) :=
  match x.action with
  | .run i =>
    match x.before.sessions.find? i with
    | some ⟨id, job, .done v, txn⟩ => some ⟨id, job, .done v, txn⟩
    | _ => none
  | _ => none

theorem Transition.Commits.commit? {σ : Signature} {x : Transition σ} {s : Session σ} {v : σ.Result}
    (h : x.Commits s v) : x.commit? = some s := by
  obtain ⟨hs, ha, hp⟩ := h
  obtain ⟨id, job, prog, txn⟩ := s
  obtain rfl : prog = .done v := hp
  simp only [Transition.commit?, ha, hs]

theorem Transition.commits_of_commit? {σ : Signature} {x : Transition σ} {s : Session σ}
    (h : x.commit? = some s) : ∃ v, x.Commits s v := by
  unfold Transition.commit? at h
  split at h
  · next i ha =>
    split at h
    · next id job v txn hs =>
      cases h
      obtain rfl : id = i := Table.key_of_find? hs
      exact ⟨v, hs, ha, rfl⟩
    · cases h
  · cases h

theorem Transition.commit?_eq_none {σ : Signature} {x : Transition σ}
    (h : ∀ s v, ¬ x.Commits s v) : x.commit? = none := by
  unfold Transition.commit?
  split
  · next i ha =>
    split
    · next id job v txn hs =>
      obtain rfl : id = i := Table.key_of_find? hs
      exact absurd ⟨hs, ha, rfl⟩ (h ⟨id, job, .done v, txn⟩ v)
    · rfl
  · rfl

/-- Session `i` ends with the transition. -/
def Transition.Closes {σ : Signature} (x : Transition σ) (i : ℕ) : Prop :=
  (x.before.sessions.find? i).isSome = true ∧ x.after.sessions.find? i = none

/-- The request a transition sends. -/
def Transition.request? {σ : Signature} (x : Transition σ) : Option σ.Request :=
  match x.action with
  | .run i =>
    match x.before.sessions.find? i with
    | some ⟨_, _, .call q _, _⟩ => some q
    | _ => none
  | _ => none

/-- The answered requests of the session that commits. -/
def Transition.calls {σ : Signature} (x : Transition σ) : List (σ.Request × σ.Answer) :=
  match x.action with
  | .run i =>
    match x.before.sessions.find? i with
    | some ⟨_, _, .done _, txn⟩ => txn.calls
    | _ => []
  | _ => []

theorem Transition.Commits.calls {σ : Signature} {x : Transition σ} {s : Session σ} {v : σ.Result}
    (h : x.Commits s v) : x.calls = s.txn.calls := by
  obtain ⟨hs, ha, hp⟩ := h
  obtain ⟨id, job, prog, txn⟩ := s
  obtain rfl : prog = .done v := hp
  simp only [Transition.calls, ha, hs]

theorem Transition.calls_eq_nil {σ : Signature} {x : Transition σ} (h : ∀ s v, ¬ x.Commits s v) :
    x.calls = [] := by
  unfold Transition.calls
  split
  · next i ha =>
    split
    · next id job v txn hs =>
      obtain rfl : id = i := Table.key_of_find? hs
      exact absurd ⟨hs, ha, rfl⟩ (h ⟨id, job, .done v, txn⟩ v)
    · rfl
  · rfl

section

variable {σ : Signature}

/-- All row locks a statement needs. -/
@[simp] def Effect.wanted [Store σ.Db σ.Write σ.Row] {β : Type} (eff : Effect σ.Write σ.Row β) :
    List (σ.Row × LockMode) :=
  eff.locks ++ writeLocks σ.Db eff.writes

namespace Txn

def executed [Store σ.Db σ.Write σ.Row] {β : Type} (x : Txn σ) (s : Shared σ)
    (eff : Effect σ.Write σ.Row β) : Txn σ :=
  { x with
    pending := x.pending ++ eff.writes
    held := x.held ++ Effect.wanted eff
    snapshots := x.snapshots ++ [s] }

/-- What a statement has read stays on record. -/
theorem getElem?_snapshots_executed [Store σ.Db σ.Write σ.Row] {x : Txn σ} {s q : Shared σ}
    {β : Type} {eff : Effect σ.Write σ.Row β} {n : ℕ} (h : x.snapshots[n]? = some q) :
    (x.executed s eff).snapshots[n]? = some q := by
  obtain ⟨hn, -⟩ := List.getElem?_eq_some_iff.mp h
  exact (List.getElem?_append_left hn).trans h

/-- A statement that has committed by itself leaves nothing open. -/
def glanced (x : Txn σ) (s : Shared σ) : Txn σ := { x with snapshots := x.snapshots ++ [s] }

def answered (x : Txn σ) (q : σ.Request) (a : σ.Answer) : Txn σ :=
  { x with calls := x.calls ++ [(q, a)] }

def given (x : Txn σ) (i : σ.Ident) : Txn σ := { x with idents := x.idents ++ [i] }

@[simp] theorem given_pending (x : Txn σ) (i : σ.Ident) : (x.given i).pending = x.pending := rfl

@[simp] theorem given_held (x : Txn σ) (i : σ.Ident) : (x.given i).held = x.held := rfl

@[simp] theorem given_snapshots (x : Txn σ) (i : σ.Ident) :
    (x.given i).snapshots = x.snapshots := rfl

@[simp] theorem given_calls (x : Txn σ) (i : σ.Ident) : (x.given i).calls = x.calls := rfl

end Txn

variable [DecidableEq σ.Row]

namespace World

/-- Another session holds a lock on `r` that conflicts with `m`. -/
def blocked (w : World σ) (i : ℕ) (r : σ.Row) (m : LockMode) : Bool :=
  w.sessions.rows.any fun s =>
    decide (s.id ≠ i) && s.txn.held.any fun l => decide (l.1 = r) && l.2.conflicts m

end World

variable [Store σ.Db σ.Write σ.Row]

/-- The next operation of a session: the shared state after it and the session
after it, `none` for a session that has ended. An operation that has to wait, or
that waits for an answer or an identifier, does not run. -/
def Session.advance (S : System σ) (blocked : σ.Row → LockMode → Bool) (sh : Shared σ)
    (s : Session σ) : Option (Shared σ × Option (Session σ)) :=
  match s.prog with
  | .done _ => some (⟨replay s.txn.pending sh.db, sh.ext⟩, none)
  | .throw _ => some (sh, none)
  | .stmt q k =>
    match q blocked (replay s.txn.pending sh.db) with
    | .error e => some (sh, some { s with prog := .throw e })
    | .ok eff =>
      if (Effect.wanted eff).any fun l => blocked l.1 l.2 then none
      else if S.autocommit s.job then
        some (⟨replay eff.writes sh.db, sh.ext⟩,
          some { s with prog := k eff.value, txn := s.txn.glanced sh })
      else some (sh, some { s with prog := k eff.value, txn := s.txn.executed sh eff })
  | .clock k => some (sh, some { s with prog := k (S.now sh.ext) })
  | .call q k => some (⟨sh.db, S.send q sh.ext⟩, some { s with prog := .await q k })
  | .await _ _ => none
  | .fresh _ => none

namespace World

/-- Replace a session, or drop it when it has ended. -/
def settle (w : World σ) (i : ℕ) (sh : Shared σ) : Option (Session σ) → World σ
  | some s => ⟨sh, w.sessions.put s⟩
  | none => ⟨sh, w.sessions.erase i⟩

def step (S : System σ) (w : World σ) : Action σ → Option (World σ)
  | .start i job =>
    if (w.sessions.find? i).isNone then
      some ⟨w.shared, w.sessions.put ⟨i, job, S.program job, {}⟩⟩
    else none
  | .run i =>
    (w.sessions.find? i).bind fun s =>
      (s.advance S (w.blocked i) w.shared).map fun r => w.settle i r.1 r.2
  | .give i ident =>
    (w.sessions.find? i).bind fun s =>
      match s.prog with
      | .fresh k =>
        some ⟨w.shared, w.sessions.put { s with prog := k ident, txn := s.txn.given ident }⟩
      | _ => none
  | .answer i a =>
    (w.sessions.find? i).bind fun s =>
      match s.prog with
      | .await q k =>
        some ⟨w.shared, w.sessions.put { s with prog := k a, txn := s.txn.answered q a }⟩
      | _ => none
  | .rollback i => (w.sessions.find? i).map fun _ => ⟨w.shared, w.sessions.erase i⟩
  | .event e => (S.event e w.shared.ext).map fun x => ⟨⟨w.shared.db, x⟩, w.sessions⟩

/-- No session is open. -/
def idle (sh : Shared σ) : World σ := ⟨sh, Table.empty _⟩

/-- Take actions in order, as long as each can run. -/
def steps (S : System σ) (w : World σ) : List (Action σ) → Option (World σ)
  | [] => some w
  | a :: as => (w.step S a).bind fun w' => w'.steps S as

/-- The same, with the transitions, newest first, on top of earlier ones. -/
def trace (S : System σ) (tr : List (Transition σ)) (w : World σ) :
    List (Action σ) → Option (List (Transition σ) × World σ)
  | [] => some (tr, w)
  | a :: as => (w.step S a).bind fun w' => w'.trace S (⟨w, a, w'⟩ :: tr) as

theorem steps_append (S : System σ) (w : World σ) (as bs : List (Action σ)) :
    w.steps S (as ++ bs) = (w.steps S as).bind fun w' => w'.steps S bs := by
  induction as generalizing w with
  | nil => rfl
  | cons a as ih =>
    simp only [List.cons_append, steps, Option.bind_assoc]
    exact congrArg _ (funext ih)

end World

/-- The histories of a system that starts with no open session, newest transition
first. -/
inductive Run (S : System σ) (start : Shared σ) : List (Transition σ) → World σ → Prop
  | nil : Run S start [] (.idle start)
  | snoc {tr : List (Transition σ)} {w w' : World σ} {a : Action σ} :
      Run S start tr w → w.step S a = some w' → Run S start (⟨w, a, w'⟩ :: tr) w'

namespace Run

variable {S : System σ} {start : Shared σ} {tr : List (Transition σ)} {w : World σ}

theorem append_steps (h : Run S start tr w) {as : List (Action σ)} {w' : World σ}
    (hs : w.steps S as = some w') : ∃ tr', Run S start (tr' ++ tr) w' := by
  induction as generalizing tr w with
  | nil =>
    obtain rfl : w = w' := by simpa [World.steps] using hs
    exact ⟨[], h⟩
  | cons a as ih =>
    obtain ⟨w₁, hw, hs⟩ := Option.bind_eq_some_iff.mp hs
    obtain ⟨tr', hr⟩ := ih (.snoc h hw) hs
    exact ⟨tr' ++ [⟨w, a, w₁⟩], by simpa using hr⟩

/-- A list of actions that all run gives a history. -/
theorem append_trace (h : Run S start tr w) {as : List (Action σ)} {tr' : List (Transition σ)}
    {w' : World σ} (ht : w.trace S tr as = some (tr', w')) :
    Run S start tr' w' ∧ tr'.map Transition.action = as.reverse ++ tr.map Transition.action := by
  induction as generalizing tr w with
  | nil =>
    cases ht
    exact ⟨h, rfl⟩
  | cons a as ih =>
    obtain ⟨w₁, hw, ht⟩ := Option.bind_eq_some_iff.mp ht
    obtain ⟨hr, hactions⟩ := ih (h.snoc hw) ht
    exact ⟨hr, by simpa using hactions⟩

variable (S start)

/-- A list of actions that all run, with what can be computed of the transitions and of the
world they lead to. -/
theorem exists_of_trace (as : List (Action σ)) {β : Type} (f : List (Transition σ) × World σ → β)
    {b : β} (h : ((World.idle start).trace S [] as).map f = some b) :
    ∃ tr w, Run S start tr w ∧ tr.map Transition.action = as.reverse ∧ f (tr, w) = b := by
  obtain ⟨⟨tr, w⟩, ht, hb⟩ := Option.map_eq_some_iff.mp h
  obtain ⟨hr, hactions⟩ := append_trace .nil ht
  exact ⟨tr, w, hr, by simpa using hactions, hb⟩

/-- The same for a history with one of its transitions. -/
theorem exists_of_steps_cons (as : List (Action σ)) (a : Action σ) (bs : List (Action σ))
    {β γ : Type} (f : Transition σ → β) (g : World σ → γ) {b : β} {c : γ}
    (h : (((World.idle start).steps S as).bind fun w =>
      (w.step S a).map fun w' => f ⟨w, a, w'⟩) = some b)
    (h' : ((World.idle start).steps S (as ++ a :: bs)).map g = some c) :
    ∃ late x early w, Run S start (late ++ x :: early) w ∧ x.action = a ∧ f x = b ∧ g w = c := by
  obtain ⟨w₁, hw₁, h⟩ := Option.bind_eq_some_iff.mp h
  obtain ⟨w₂, hw₂, hb⟩ := Option.map_eq_some_iff.mp h
  obtain ⟨w₃, hw₃, hc⟩ := Option.map_eq_some_iff.mp h'
  rw [World.steps_append, hw₁, Option.bind_some, World.steps, hw₂, Option.bind_some] at hw₃
  obtain ⟨early, hr⟩ := append_steps (Run.nil : Run S start [] (.idle start)) hw₁
  obtain ⟨late, hr'⟩ := append_steps (hr.snoc hw₂) hw₃
  exact ⟨late, ⟨w₁, a, w₂⟩, _, w₃, hr', rfl, hb, hc⟩

/-- The same with the actions before and after the transition. -/
theorem exists_of_trace_cons (as : List (Action σ)) (a : Action σ) (bs : List (Action σ))
    {β γ : Type} (f : Transition σ → β) (g : List (Transition σ) → World σ → γ) {b : β} {c : γ}
    (h : ((World.idle start).trace S [] (as ++ a :: bs)).map
      (fun r => (r.1[bs.length]?.map f, g (r.1.take bs.length) r.2)) = some (some b, c)) :
    ∃ late x early w, Run S start (late ++ x :: early) w ∧
      (late ++ x :: early).map Transition.action = (as ++ a :: bs).reverse ∧
      late.map Transition.action = bs.reverse ∧ f x = b ∧ g late w = c := by
  obtain ⟨tr, w, hr, hactions, hobs⟩ := exists_of_trace S start _ _ h
  have hcut := hactions
  rw [List.reverse_append, List.reverse_cons, List.append_assoc] at hcut
  obtain ⟨late, rest, rfl, hlate, hrest⟩ := List.map_eq_append_iff.mp hcut
  obtain ⟨x, early, rfl, -, -⟩ := List.map_eq_cons_iff.mp hrest
  have hlength : late.length = bs.length := by
    simpa using congrArg List.length hlate
  obtain ⟨hf, hg⟩ := Prod.mk.inj hobs
  rw [← hlength] at hf
  simp only [List.getElem?_append_right (Nat.le_refl _), Nat.sub_self, List.getElem?_cons_zero,
    Option.map_some, Option.some.injEq] at hf
  rw [← hlength, List.take_left] at hg
  exact ⟨late, x, early, w, hr, hactions, hlate, hf, hg⟩

variable {S start}

/-- A history can be cut before any of its transitions. -/
theorem cut {late early : List (Transition σ)} {x : Transition σ}
    (h : Run S start (late ++ x :: early) w) :
    Run S start early x.before ∧ x.before.step S x.action = some x.after := by
  induction late generalizing w with
  | nil => cases h with | snoc hr hs => exact ⟨hr, hs⟩
  | cons y late ih => cases h with | snoc hr _ => exact ih hr

theorem cut_of_mem {x : Transition σ} (h : Run S start tr w) (hx : x ∈ tr) :
    ∃ early, early.length < tr.length ∧ (∀ y ∈ early, y ∈ tr) ∧ Run S start early x.before ∧
      x.before.step S x.action = some x.after := by
  obtain ⟨late, early, rfl⟩ := List.append_of_mem hx
  obtain ⟨hr, hs⟩ := h.cut
  exact ⟨early, by simp; omega, fun y hy => by simp [hy], hr, hs⟩

/-- Every history goes on to one where all open sessions have been rolled back. -/
theorem exists_rolledBack (h : Run S start tr w) :
    ∃ late w', Run S start (late ++ tr) w' ∧ w'.shared = w.shared ∧ w'.sessions.rows = [] ∧
      (∀ y ∈ late, ∃ i, y.action = .rollback i) ∧
      ∀ s ∈ w.sessions.rows, ∃ y ∈ late, y.Closes s.id := by
  induction hn : w.sessions.rows.length using Nat.strongRecOn generalizing tr w with
  | ind n ih =>
    by_cases hempty : w.sessions.rows = []
    · exact ⟨[], w, h, rfl, hempty, by simp, by simp [hempty]⟩
    obtain ⟨s, hs⟩ := List.exists_mem_of_ne_nil _ hempty
    let y : Transition σ := ⟨w, .rollback s.id, ⟨w.shared, w.sessions.erase s.id⟩⟩
    have hfind := Table.find?_of_mem hs
    have hstep : w.step S (.rollback s.id) = some y.after := by
      simp only [World.step, hfind, Option.map_some, y]
    obtain ⟨late, w', hr, hshared, hempty, hback, hends⟩ :=
      ih _ (hn ▸ Table.length_erase_lt hs) (h.snoc hstep) rfl
    refine ⟨late ++ [y], w', by simpa using hr, hshared, hempty, fun z hz => ?_, fun t ht => ?_⟩
    · rcases List.mem_append.mp hz with hz | hz
      · exact hback z hz
      · exact ⟨s.id, by rw [List.mem_singleton.mp hz]⟩
    · by_cases he : t.id = s.id
      · refine ⟨y, by simp, ?_⟩
        rw [he]
        exact ⟨by simp [y, hfind], by simp [y, Table.find?_erase]⟩
      · obtain ⟨z, hz, hend⟩ := hends t (Table.mem_erase.mpr ⟨ht, he⟩)
        exact ⟨z, List.mem_append_left _ hz, hend⟩

end Run

end

end ReadCommitted
