import Mathlib.Data.Int.Notation
import Mathlib.Data.Option.Basic

/-!
# Programs over a row-locking database

A transaction's code is a tree of the operations it performs, one SQL statement
at a time, with what it does next given as a function of the answer. The
database itself, the rows that can be locked and what a write does to them are
parameters.

## Main definitions

- `LockMode` — the row locks of PostgreSQL that statements here take
- `Stmt` — one statement: from the database the session sees, its result, the
  row images it writes and the row locks it needs
- `Store` — what writes do, and which row each of them touches
- `Prog` — a program, a monad
-/

set_option autoImplicit false

namespace ReadCommitted

/-- `FOR KEY SHARE` (a foreign-key check), `FOR NO KEY UPDATE` (an `UPDATE` or an
`INSERT`), `FOR UPDATE`. -/
inductive LockMode where
  | keyShare
  | noKeyUpdate
  | update
  deriving DecidableEq, Repr

namespace LockMode

/-- Two transactions cannot hold conflicting locks on one row. -/
def conflicts : LockMode → LockMode → Bool
  | .keyShare, .update => true
  | .update, .keyShare => true
  | .keyShare, _ => false
  | _, .keyShare => false
  | _, _ => true

/-- While the lock is held nobody else can write the row. -/
def protects : LockMode → Bool
  | .keyShare => false
  | _ => true

/-- Whoever holds `m` on a row need not wait for `n` on it. -/
def covers : LockMode → LockMode → Bool
  | .update, _ => true
  | .noKeyUpdate, n => n ≠ .update
  | .keyShare, n => n = .keyShare

theorem conflicts_of_covers {m n k : LockMode} (h : m.covers n = true)
    (hk : k.conflicts n = true) : k.conflicts m = true := by
  cases m <;> cases n <;> cases k <;> simp_all [covers, conflicts]

theorem conflicts_comm (m n : LockMode) : m.conflicts n = n.conflicts m := by
  cases m <;> cases n <;> rfl

end LockMode

/-- What a statement does: the value it returns, the row images it leaves and the
locks it takes besides those on the rows it writes. -/
structure Effect (W R β : Type) where
  value : β
  writes : List W := []
  locks : List (R × LockMode) := []

/-- A statement reads the database as its session sees it, and may skip rows that
another session has locked (`SKIP LOCKED`): the first argument says which. -/
abbrev Stmt (D W R E β : Type) : Type :=
  (R → LockMode → Bool) → D → Except E (Effect W R β)

/-- A database `D` whose rows `R` are replaced by row images `W`, or removed; images with no
target are appended to logs nobody locks. -/
class Store (D : Type) (W R : outParam Type) where
  apply : W → D → D
  target : W → Option R
  removes : W → Bool
  row : R → D → Option W
  row_apply : ∀ w r d, target w ≠ some r → row r (apply w d) = row r d
  row_apply_self : ∀ w r d, target w = some r →
    row r (apply w d) = if removes w then none else some w

section Store

variable {D W R : Type} [Store D W R]

/-- The database after a list of writes, first write first. -/
def replay (ws : List W) (d : D) : D := ws.foldl (fun d w => Store.apply w d) d

@[simp] theorem replay_nil (d : D) : replay [] d = d := rfl

@[simp] theorem replay_cons (w : W) (ws : List W) (d : D) :
    replay (w :: ws) d = replay ws (Store.apply w d) := rfl

@[simp] theorem replay_append (ws vs : List W) (d : D) :
    replay (ws ++ vs) d = replay vs (replay ws d) := by
  simp [replay]

/-- The locks that come with writing: an `UPDATE` or `INSERT` locks its row. -/
def writeLocks (D : Type) [Store D W R] (ws : List W) : List (R × LockMode) :=
  ws.filterMap fun w => (Store.target (D := D) w).map fun r => (r, .noKeyUpdate)

@[simp] theorem writeLocks_nil : writeLocks D ([] : List W) = ([] : List (R × LockMode)) := rfl

@[simp] theorem writeLocks_cons (w : W) (ws : List W) :
    writeLocks D (w :: ws) =
      ((Store.target (D := D) w).map fun r => (r, LockMode.noKeyUpdate)).toList ++
        writeLocks D ws := by
  cases h : Store.target (D := D) w <;> simp [writeLocks, h]

theorem mem_writeLocks {ws : List W} {r : R} {m : LockMode} :
    (r, m) ∈ writeLocks D ws ↔
      m = .noKeyUpdate ∧ ∃ w ∈ ws, Store.target (D := D) w = some r := by
  simp only [writeLocks, List.mem_filterMap, Option.map_eq_some_iff, Prod.mk.injEq]
  constructor
  · rintro ⟨w, hw, r', hr, rfl, rfl⟩
    exact ⟨rfl, w, hw, hr⟩
  · rintro ⟨rfl, w, hw, hr⟩
    exact ⟨w, hw, r, hr, rfl, rfl⟩

/-- A row none of the writes targets keeps its image. -/
theorem row_replay {ws : List W} {r : R} {d : D}
    (h : ∀ w ∈ ws, Store.target (D := D) w ≠ some r) :
    Store.row r (replay ws d) = Store.row r d := by
  induction ws generalizing d with
  | nil => rfl
  | cons w ws ih =>
    rw [replay_cons, ih fun v hv => h v (List.mem_cons_of_mem _ hv)]
    exact Store.row_apply w r d (h w List.mem_cons_self)

/-- A row after a list of writes is one of them or was there before. -/
theorem row_replay_cases {ws : List W} {r : R} {d : D} {v : W}
    (h : Store.row r (replay ws d) = some v) :
    (v ∈ ws ∧ Store.target (D := D) v = some r) ∨
      Store.row r d = some v ∧ ∀ w ∈ ws, Store.target (D := D) w ≠ some r := by
  induction ws generalizing d with
  | nil => exact .inr ⟨h, by simp⟩
  | cons w ws ih =>
    rcases ih h with ⟨hv, ht⟩ | ⟨hv, hn⟩
    · exact .inl ⟨List.mem_cons_of_mem _ hv, ht⟩
    · by_cases hw : Store.target (D := D) w = some r
      · rw [Store.row_apply_self w r d hw] at hv
        split at hv
        · cases hv
        · obtain rfl := Option.some.inj hv
          exact .inl ⟨List.mem_cons_self, hw⟩
      · rw [Store.row_apply w r d hw] at hv
        exact .inr ⟨hv, by simpa using ⟨hw, hn⟩⟩

/-- No row goes but by a write that removes it. -/
theorem isSome_row_replay {ws : List W} {r : R} {d : D}
    (hkeep : ∀ w ∈ ws, Store.target (D := D) w = some r → Store.removes (D := D) w = false)
    (h : (Store.row r d).isSome = true) : (Store.row r (replay ws d)).isSome = true := by
  induction ws generalizing d with
  | nil => exact h
  | cons w ws ih =>
    refine ih (fun v hv => hkeep v (List.mem_cons_of_mem _ hv)) ?_
    by_cases hw : Store.target (D := D) w = some r
    · rw [Store.row_apply_self w r d hw, hkeep w List.mem_cons_self hw]
      rfl
    · rw [Store.row_apply w r d hw]
      exact h

/-- A row ends up as the last write to it has left it. -/
theorem row_replay_last {ws vs : List W} {r : R} {d : D} {w : W}
    (ht : Store.target (D := D) w = some r) (hkeep : Store.removes (D := D) w = false)
    (h : ∀ v ∈ vs, Store.target (D := D) v ≠ some r) :
    Store.row r (replay (ws ++ w :: vs) d) = some w := by
  rw [replay_append, replay_cons, row_replay h, Store.row_apply_self w r _ ht, hkeep]
  rfl

/-- A row that is written and not removed is there afterwards. -/
theorem isSome_row_of_mem {ws : List W} {r : R} {d : D} {w : W} (hw : w ∈ ws)
    (ht : Store.target (D := D) w = some r)
    (hkeep : ∀ w ∈ ws, Store.target (D := D) w = some r → Store.removes (D := D) w = false) :
    (Store.row r (replay ws d)).isSome = true := by
  obtain ⟨as, bs, rfl⟩ := List.append_of_mem hw
  rw [replay_append, replay_cons]
  refine isSome_row_replay (fun v hv => hkeep v (by simp [hv])) ?_
  rw [Store.row_apply_self w r _ ht, hkeep w hw ht]
  rfl

end Store

/-- The types of a system: its database with row images and row names, the
requests to an outside service and their answers, exceptions, fresh identifiers,
the state of everything outside the database with what can happen there, the jobs
a session can run and what they return. -/
structure Signature where
  Db : Type
  Write : Type
  Row : Type
  Request : Type
  Answer : Type
  Error : Type
  Ident : Type
  External : Type
  Event : Type
  Job : Type
  Result : Type

/-- The code of one session: statements against the database, requests to the
service outside of it, readings of the clock, fresh identifiers, and an end by a
value or by an exception. `await` is a request that has been sent and not yet
answered. -/
inductive Prog (σ : Signature) (α : Type) : Type 1
  | done (value : α)
  | throw (error : σ.Error)
  | stmt {β : Type} (s : Stmt σ.Db σ.Write σ.Row σ.Error β) (k : β → Prog σ α)
  | call (q : σ.Request) (k : σ.Answer → Prog σ α)
  | await (q : σ.Request) (k : σ.Answer → Prog σ α)
  | clock (k : ℤ → Prog σ α)
  | fresh (k : σ.Ident → Prog σ α)

namespace Prog

variable {σ : Signature} {α β γ : Type}

def bind : Prog σ α → (α → Prog σ β) → Prog σ β
  | .done a, f => f a
  | .throw e, _ => .throw e
  | .stmt s k, f => .stmt s fun b => (k b).bind f
  | .call q k, f => .call q fun a => (k a).bind f
  | .await q k, f => .await q fun a => (k a).bind f
  | .clock k, f => .clock fun t => (k t).bind f
  | .fresh k, f => .fresh fun i => (k i).bind f

instance : Monad (Prog σ) where
  pure := .done
  bind := bind

/-- One statement as a program. -/
def exec (s : Stmt σ.Db σ.Write σ.Row σ.Error β) : Prog σ β := .stmt s .done

/-- The clock as a program. -/
def now : Prog σ ℤ := .clock .done

/-- A fresh identifier as a program. -/
def uuid : Prog σ σ.Ident := .fresh .done

/-- A request to the outside service as a program. -/
def request (q : σ.Request) : Prog σ σ.Answer := .call q .done

/-- The same for each of a list, one after the other. -/
def forEach {κ : Type} (ks : List κ) (f : κ → Prog σ Unit) : Prog σ Unit :=
  match ks with
  | [] => pure ()
  | k :: ks => f k >>= fun _ => forEach ks f

@[simp] theorem pure_bind (a : α) (f : α → Prog σ β) : (pure a >>= f : Prog σ β) = f a := rfl

@[simp] theorem throw_bind (e : σ.Error) (f : α → Prog σ β) :
    ((Prog.throw e : Prog σ α) >>= f) = .throw e := rfl

@[simp] theorem exec_bind (s : Stmt σ.Db σ.Write σ.Row σ.Error γ) (f : γ → Prog σ β) :
    (exec s >>= f) = .stmt s f := rfl

@[simp] theorem now_bind (f : ℤ → Prog σ β) : (now >>= f) = .clock f := rfl

@[simp] theorem uuid_bind (f : σ.Ident → Prog σ β) : (uuid >>= f) = .fresh f := rfl

@[simp] theorem request_bind (q : σ.Request) (f : σ.Answer → Prog σ β) :
    (request q >>= f) = .call q f := rfl

@[simp] theorem stmt_bind (s : Stmt σ.Db σ.Write σ.Row σ.Error γ) (k : γ → Prog σ α)
    (f : α → Prog σ β) : (Prog.stmt s k >>= f) = .stmt s fun b => k b >>= f := rfl

@[simp] theorem clock_bind (k : ℤ → Prog σ α) (f : α → Prog σ β) :
    (Prog.clock k >>= f) = .clock fun t => k t >>= f := rfl

@[simp] theorem fresh_bind (k : σ.Ident → Prog σ α) (f : α → Prog σ β) :
    (Prog.fresh k >>= f) = .fresh fun i => k i >>= f := rfl

@[simp] theorem call_bind (q : σ.Request) (k : σ.Answer → Prog σ α) (f : α → Prog σ β) :
    (Prog.call q k >>= f) = .call q fun a => k a >>= f := rfl

end Prog

end ReadCommitted
