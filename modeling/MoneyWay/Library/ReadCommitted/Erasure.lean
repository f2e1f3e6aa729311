import MoneyWay.Library.ReadCommitted.Soundness

/-!
# Sessions that can be erased

A session that writes nothing and sends nothing can be taken out of a history: what is
left is a history that ends in the same shared state. It may hold locks, for which others
may have had to wait, but not on rows that a `SKIP LOCKED` looks at.

## Main definitions

- `Prog.Watches` — the rows whose locks the statements of a program look at
- `Bystander` — a session that can be erased
- `Run.erased` — the history without such sessions
-/

set_option autoImplicit false

namespace ReadCommitted

open Keyed

/-- Whether other rows than those watched are locked makes no difference to a statement. -/
def Stmt.Watches {D W R E β : Type} (watched : R → Prop) (q : Stmt D W R E β) : Prop :=
  ∀ b b' d, (∀ r m, watched r → b r m = b' r m) → q b d = q b' d

/-- A statement that skips no locked rows. -/
theorem Stmt.Watches.of_const {D W R E β : Type} {watched : R → Prop} {q : Stmt D W R E β}
    (h : ∀ b b' d, q b d = q b' d) : Stmt.Watches watched q := fun b b' d _ => h b b' d

namespace Prog

variable {σ : Signature} {α β : Type} {watched : σ.Row → Prop}

/-- The same for every statement of a program. -/
def Watches (watched : σ.Row → Prop) {α : Type} : Prog σ α → Prop
  | .done _ => True
  | .throw _ => True
  | .stmt q k => Stmt.Watches watched q ∧ ∀ v, Watches watched (k v)
  | .call _ k => ∀ a, Watches watched (k a)
  | .await _ k => ∀ a, Watches watched (k a)
  | .clock k => ∀ t, Watches watched (k t)
  | .fresh k => ∀ i, Watches watched (k i)

theorem Watches.bind {p : Prog σ α} {f : α → Prog σ β} (hp : p.Watches watched)
    (hf : ∀ a, (f a).Watches watched) : (p >>= f).Watches watched := by
  induction p with
  | done a => exact hf a
  | throw => trivial
  | stmt q k ih => exact ⟨hp.1, fun v => ih v (hp.2 v)⟩
  | call q k ih => exact fun a => ih a (hp a)
  | await q k ih => exact fun a => ih a (hp a)
  | clock k ih => exact fun t => ih t (hp t)
  | fresh k ih => exact fun i => ih i (hp i)

theorem Watches.exec {q : Stmt σ.Db σ.Write σ.Row σ.Error α} (h : Stmt.Watches watched q) :
    (Prog.exec q : Prog σ α).Watches watched := ⟨h, fun _ => trivial⟩

theorem Watches.ite {c : Prop} [Decidable c] {p q : Prog σ α} (hp : p.Watches watched)
    (hq : q.Watches watched) : (if c then p else q).Watches watched := by
  split
  · exact hp
  · exact hq

theorem Watches.now {f : ℤ → Prog σ β} (h : ∀ t, (f t).Watches watched) :
    (Prog.now >>= f).Watches watched := h

theorem Watches.uuid {f : σ.Ident → Prog σ β} (h : ∀ i, (f i).Watches watched) :
    (Prog.uuid >>= f).Watches watched := h

end Prog

variable {σ : Signature}

/-- The session an action is of. -/
def Action.session? : Action σ → Option ℕ
  | .start i _ | .run i | .give i _ | .answer i _ | .rollback i => some i
  | .event _ => none

/-- A session that writes nothing, sends nothing and has locked no watched row. -/
structure Bystander (S : System σ) (watched : σ.Row → Prop) (s : Session σ) : Prop where
  together : S.autocommit s.job = false
  pending : s.txn.pending = []
  held : ∀ l ∈ s.txn.held, ¬ watched l.1
  silent : ∀ q k, s.prog ≠ .call q k

/-- The world without some sessions. -/
def World.erased (D : ℕ → Bool) (w : World σ) : World σ :=
  ⟨w.shared, w.sessions.restrict fun i => !D i⟩

/-- The actions of the other sessions. -/
def Action.others (D : ℕ → Bool) (as : List (Action σ)) : List (Action σ) :=
  as.filter fun a => !a.session?.any D

section

variable [DecidableEq σ.Row] {watched : σ.Row → Prop} {D : ℕ → Bool} {w w' : World σ}

theorem World.blocked_of_erased {i : ℕ} {r : σ.Row} {m : LockMode}
    (h : (w.erased D).blocked i r m = true) : w.blocked i r m = true := by
  simp only [World.blocked, List.any_eq_true] at h ⊢
  obtain ⟨s, hs, h⟩ := h
  exact ⟨s, (Table.mem_restrict.mp hs).1, h⟩

/-- Those who are erased block nobody on a watched row. -/
theorem World.blocked_erased {S : System σ} (i : ℕ)
    (hb : ∀ s ∈ w.sessions.rows, D s.id = true → Bystander S watched s) {r : σ.Row}
    (hr : watched r) (m : LockMode) : (w.erased D).blocked i r m = w.blocked i r m := by
  rw [Bool.eq_iff_iff]
  refine ⟨World.blocked_of_erased, fun h => ?_⟩
  simp only [World.blocked, List.any_eq_true, Bool.and_eq_true, decide_eq_true_eq] at h ⊢
  obtain ⟨s, hs, hne, l, hl, rfl, hc⟩ := h
  refine ⟨s, Table.mem_restrict.mpr ⟨hs, ?_⟩, hne, l, hl, rfl, hc⟩
  by_contra hD
  exact (hb s hs (by simpa using hD)).held l hl hr

variable [Store σ.Db σ.Write σ.Row]

omit [DecidableEq σ.Row] in
/-- A session goes on in the same way when fewer rows are locked. -/
theorem Session.advance_of_le {S : System σ} {b b' : σ.Row → LockMode → Bool} {sh : Shared σ}
    {s : Session σ} {r : Shared σ × Option (Session σ)} (hs : s.prog.Watches watched)
    (hle : ∀ r m, b' r m = true → b r m = true) (heq : ∀ r m, watched r → b' r m = b r m)
    (h : s.advance S b sh = some r) : s.advance S b' sh = some r := by
  unfold Session.advance at h ⊢
  split at h
  case h_3 β q k hp =>
    rw [hp] at hs
    simp only [hs.1 b' b (replay s.txn.pending sh.db) heq]
    split at h
    · exact h
    · next eff _ =>
      split at h
      · cases h
      · next hb =>
        have hb' : ((Effect.wanted eff).any fun l => b' l.1 l.2) = false := by
          rw [List.any_eq_false]
          intro l hl hbl
          exact hb (List.any_eq_true.mpr ⟨l, hl, hle _ _ hbl⟩)
        simp only [hb', Bool.false_eq_true, if_false]
        exact h
  all_goals exact h

/-- An operation of a session that is erased does not show. -/
theorem World.step_bystander {S : System σ} {a : Action σ} {i : ℕ} (h : w.step S a = some w')
    (ha : a.session? = some i) (hD : D i = true)
    (hb : ∀ s ∈ w.sessions.rows, D s.id = true → Bystander S watched s) :
    w'.erased D = w.erased D := by
  have hi : (!D i) = false := by simp [hD]
  -- a session with this id is put back or dropped
  have hput {sh : Shared σ} {s : Session σ} (hsh : sh = w.shared) (hid : s.id = i) :
      World.erased D ⟨sh, w.sessions.put s⟩ = w.erased D := by
    rw [World.erased, World.erased, Table.restrict_put, hid, hi, hsh]
    rfl
  have herase : World.erased D ⟨w.shared, w.sessions.erase i⟩ = w.erased D := by
    rw [World.erased, Table.restrict_erase, Table.erase_restrict_of_not (p := fun i => !D i) hi]
    rfl
  cases World.stepTo h with
  | start =>
    cases ha
    exact hput rfl rfl
  | give | answer =>
    cases ha
    exact hput rfl rfl
  | rollback =>
    cases ha
    exact herase
  | event => cases ha
  | @run s sh t hs hr =>
    cases ha
    have hs' := hb s (Table.mem_of_find? hs) hD
    cases Session.advances hr with
    | commit hp =>
      rw [hs'.pending]
      exact herase
    | abort hp => exact herase
    | fail hp => exact hput rfl rfl
    | together hp => exact hput rfl rfl
    | single _ _ _ hauto =>
      rw [hs'.together] at hauto
      cases hauto
    | clock hp => exact hput rfl rfl
    | send hp => exact absurd hp (hs'.silent _ _)

/-- The other actions go on without the sessions that are erased. -/
theorem World.step_erased {S : System σ} {a : Action σ} (h : w.step S a = some w')
    (ha : ∀ i ∈ a.session?, D i = false)
    (hb : ∀ s ∈ w.sessions.rows, D s.id = true → Bystander S watched s)
    (hw : ∀ s ∈ w.sessions.rows, s.prog.Watches watched) :
    (w.erased D).step S a = some (w'.erased D) := by
  have hfind {i : ℕ} (hi : D i = false) : (w.erased D).sessions.find? i = w.sessions.find? i := by
    rw [World.erased, Table.find?_restrict, hi]
    rfl
  have hput {i : ℕ} {sh : Shared σ} {s : Session σ} (hi : D i = false) (hid : s.id = i) :
      World.erased D ⟨sh, w.sessions.put s⟩ = ⟨sh, (w.erased D).sessions.put s⟩ := by
    rw [World.erased, World.erased, Table.restrict_put, hid, hi]
    rfl
  have herase (i : ℕ) (sh : Shared σ) : World.erased D ⟨sh, w.sessions.erase i⟩ =
      ⟨sh, (w.erased D).sessions.erase i⟩ := by
    rw [World.erased, World.erased, Table.restrict_erase]
  cases World.stepTo h with
  | @start i j hfree =>
    have hi := ha i rfl
    simp only [World.step, hfind hi, hfree, Option.isNone_none, if_true]
    exact congrArg some (hput hi rfl).symm
  | @give s k i hs hp =>
    have hi := ha s.id rfl
    simp only [World.step, hfind hi, hs, Option.bind_some, hp]
    exact congrArg some
      (hput (s := { s with prog := k i, txn := s.txn.given i }) hi rfl).symm
  | @answer s q k b hs hp =>
    have hi := ha s.id rfl
    simp only [World.step, hfind hi, hs, Option.bind_some, hp]
    exact congrArg some
      (hput (s := { s with prog := k b, txn := s.txn.answered q b }) hi rfl).symm
  | @rollback s hs =>
    have hi := ha s.id rfl
    simp only [World.step, hfind hi, hs, Option.map_some, herase]
    rfl
  | @event e y hy => exact Option.map_eq_some_iff.mpr ⟨y, hy, rfl⟩
  | @run s sh t hs hr =>
    have hi := ha s.id rfl
    have hr' : s.advance S ((w.erased D).blocked s.id) w.shared = some (sh, t) :=
      Session.advance_of_le (hw s (Table.mem_of_find? hs)) (fun r m => World.blocked_of_erased)
        (fun r m hrow => World.blocked_erased s.id hb hrow m) hr
    have hshared : (w.erased D).shared = w.shared := rfl
    simp only [World.step, hfind hi, hs, Option.bind_some, hshared, hr', Option.map_some]
    cases t with
    | none => exact congrArg some (herase s.id sh).symm
    | some t =>
      have hsame : t.id = s.id := by
        cases Session.advances hr <;> rfl
      exact congrArg some (hput hi hsame).symm

omit [DecidableEq σ.Row] in
/-- What a session goes on with is part of what it was to do. -/
theorem Session.Advances.watches {S : System σ} {b : σ.Row → LockMode → Bool} {sh sh' : Shared σ}
    {s t : Session σ} (h : s.Advances S b sh sh' (some t)) (hs : s.prog.Watches watched) :
    t.prog.Watches watched := by
  generalize hr : some t = r at h
  cases h with
  | commit hp => cases hr
  | abort hp => cases hr
  | fail hp =>
    cases hr
    trivial
  | together hp | single hp =>
    cases hr
    rw [hp] at hs
    exact hs.2 _
  | clock hp =>
    cases hr
    rw [hp] at hs
    exact hs _
  | send hp =>
    cases hr
    rw [hp] at hs
    exact hs

/-- The programs of all open sessions are as the programs of the jobs. -/
theorem Run.watches {S : System σ} {start : Shared σ} {tr : List (Transition σ)}
    (h : Run S start tr w) (hp : ∀ j, (S.program j).Watches watched) :
    ∀ s ∈ w.sessions.rows, s.prog.Watches watched := by
  refine Run.sessions (I := fun s => s.prog.Watches watched) (fun _ j => hp j) ?_ h
  intro sh s t hstep hs
  cases hstep with
  | advance hadv => exact hadv.watches hs
  | give i hprog =>
    rw [hprog] at hs
    exact hs i
  | answer a hprog =>
    rw [hprog] at hs
    exact hs a

/-- The history without the sessions that are erased ends in the same shared state. -/
theorem Run.erased {S : System σ} {start : Shared σ} {tr : List (Transition σ)}
    (h : Run S start tr w) (hp : ∀ j, (S.program j).Watches watched)
    (hb : ∀ x ∈ tr, ∀ s ∈ x.before.sessions.rows, D s.id = true → Bystander S watched s) :
    ∃ tr', Run S start tr' (w.erased D) ∧
      tr'.map Transition.action = Action.others D (tr.map Transition.action) := by
  induction h with
  | nil => exact ⟨[], .nil, rfl⟩
  | @snoc tr w w' a hr hstep ih =>
    obtain ⟨tr', hr', hactions⟩ := ih fun x hx => hb x (List.mem_cons_of_mem _ hx)
    have hby := hb _ List.mem_cons_self
    by_cases ha : a.session?.any D = true
    · obtain ⟨i, hi, hD⟩ := (Option.any_eq_true _ _).mp ha
      rw [World.step_bystander hstep hi hD hby]
      refine ⟨tr', hr', ?_⟩
      rw [hactions, Action.others, Action.others, List.map_cons, List.filter_cons_of_neg]
      simpa using ha
    · have hnot : ∀ i ∈ a.session?, D i = false := by
        intro i hi
        rw [Option.mem_def] at hi
        simpa [hi] using ha
      refine ⟨_, hr'.snoc (World.step_erased hstep hnot hby (hr.watches hp)), ?_⟩
      rw [List.map_cons, hactions, Action.others, Action.others, List.map_cons,
        List.filter_cons_of_pos]
      simpa using ha

/-- Actions determine a history. -/
theorem Run.unique {S : System σ} {start : Shared σ} {tr tr' : List (Transition σ)}
    (h : Run S start tr w) (h' : Run S start tr' w')
    (ha : tr.map Transition.action = tr'.map Transition.action) : w = w' := by
  induction h generalizing tr' w' with
  | nil =>
    cases h' with
    | nil => rfl
    | snoc => cases ha
  | snoc _ hstep ih =>
    cases h' with
    | nil => cases ha
    | snoc hr' hstep' =>
      rw [List.map_cons, List.map_cons, List.cons.injEq] at ha
      obtain ⟨rfl, hrest⟩ := ha
      obtain rfl := ih hr' hrest
      exact Option.some.inj (hstep.symm.trans hstep')

end

end ReadCommitted
