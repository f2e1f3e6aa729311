import MoneyWay.Library.ReadCommitted.After
import MoneyWay.Library.ReadCommitted.Quiet
import MoneyWay.Library.ReadCommitted.Sending

/-!
# Code that comes to its end

Code that runs alone with given answers always ends. Where no statement fails, and the answers are
of a kind that it can deal with, it ends by a value.

## Main definitions

- `Txn.AnsweredBy` — every call of the transaction has got its answer
- `Serves` — what is sent can be served by what happens outside

## Main results

- `Prog.exists_alone` — code that runs alone ends
- `Prog.Begins.after` — and not by an exception, if it raises nothing
- `Contract.Valid.ends_past` — what a contract says about the end and what has been read
-/

set_option autoImplicit false

namespace ReadCommitted

section

variable {σ : Signature} {S : System σ} {α : Type} {p : Prog σ α}

/-- Every call of the transaction has got this answer. -/
def Txn.AnsweredBy (answers : σ.Request → σ.Answer) (x : Txn σ) : Prop :=
  ∀ c ∈ x.calls, c.2 = answers c.1

/-- Outside, `C` can be made true of a request that has just been sent, and stays true. -/
structure Serves (S : System σ) (C : σ.Request → σ.External → Prop) : Prop where
  served : ∀ q y, ∃ y', Passes S (S.send q y) y' ∧ C q y'
  send : ∀ q r y, C q y → C q (S.send r y)
  event : ∀ q e y y', C q y → S.event e y = some y' → C q y'

/-- Nothing has to happen outside. -/
theorem serves_true (S : System σ) : Serves S fun _ _ => True :=
  ⟨fun _ _ => ⟨_, .refl, trivial⟩, fun _ _ _ _ => trivial, fun _ _ _ _ _ _ => trivial⟩

theorem Serves.passes {C : σ.Request → σ.External → Prop} (hC : Serves S C) {q : σ.Request}
    {y y' : σ.External} (h : C q y) (hy : Passes S y y') : C q y' := by
  induction hy with
  | refl => exact h
  | tail _ he ih =>
    obtain ⟨e, he⟩ := he
    exact hC.event _ e _ _ ih he

/-- Every call of the transaction has got its answer, and has been served. -/
def Txn.ServedBy (answers : σ.Request → σ.Answer) (C : σ.Request → σ.External → Prop) (x : Txn σ)
    (y : σ.External) : Prop :=
  x.AnsweredBy answers ∧ ∀ c ∈ x.calls, C c.1 y

/-- No request has been sent that waits for its answer. -/
def Prog.Unsent : Prog σ α → Prop
  | .done _ => True
  | .throw _ => True
  | .stmt _ k => ∀ v, (k v).Unsent
  | .call _ k => ∀ a, (k a).Unsent
  | .await _ _ => False
  | .clock k => ∀ t, (k t).Unsent
  | .fresh k => ∀ i, (k i).Unsent

theorem Prog.Unsent.bind {β : Type} {p : Prog σ α} {f : α → Prog σ β} (hp : p.Unsent)
    (hf : ∀ v, (f v).Unsent) : (p >>= f).Unsent := by
  induction p with
  | done v => exact hf v
  | throw e => exact trivial
  | stmt q k ih => exact fun v => ih v (hp v)
  | call q k ih => exact fun a => ih a (hp a)
  | await q k ih => exact hp.elim
  | clock k ih => exact fun t => ih t (hp t)
  | fresh k ih => exact fun i => ih i (hp i)

theorem Prog.Silent.unsent (hp : p.Silent) : p.Unsent := by
  induction p with
  | done v | throw e => exact trivial
  | stmt q k ih => exact fun v => ih v (hp v)
  | call q k ih | await q k ih => exact hp.elim
  | clock k ih => exact fun t => ih t (hp t)
  | fresh k ih => exact fun i => ih i (hp i)

end

section

variable {σ : Signature} [Store σ.Db σ.Write σ.Row] {S : System σ} {α : Type}
  {answers : σ.Request → σ.Answer} {x x' : Txn σ} {s s' : Shared σ} {p : Prog σ α}
  {r : Option (Except σ.Error α)}

theorem Alone.calls_prefix (h : Alone S p x s r x' s') : x.calls <+: x'.calls := by
  induction h with
  | done | throw | lost | fail => exact List.prefix_refl _
  | answer _ ih => exact (List.prefix_append _ _).trans ih
  | stmt _ _ ih | call _ ih | clock _ ih | fresh _ ih | event _ _ ih => exact ih

namespace Prog

/-- Code that runs alone comes to an end with these answers, and is served. -/
theorem exists_alone {C : σ.Request → σ.External → Prop} (hC : Serves S C) (ident : σ.Ident)
    (p : Prog σ α) (hp : p.Unsent) (s : Shared σ) (hx : x.ServedBy answers C s.ext) :
    ∃ r x' s', Alone S p x s (some r) x' s' ∧ x'.ServedBy answers C s'.ext := by
  induction p generalizing x s with
  | done v => exact ⟨_, _, _, .done, hx⟩
  | throw e => exact ⟨_, _, _, .throw, hx⟩
  | stmt q k ih =>
    cases hq : q (fun _ _ => false) (replay x.pending s.db) with
    | error e => exact ⟨_, _, _, .fail hq, hx⟩
    | ok eff =>
      obtain ⟨r, x', s', ha, hx'⟩ := ih eff.value (hp _) (x := x.executed s eff) s hx
      exact ⟨r, x', s', .stmt hq ha, hx'⟩
  | call q k ih =>
    -- the request is served before it is answered
    obtain ⟨y, hy, hq⟩ := hC.served q s.ext
    have hserved : (x.answered q (answers q)).ServedBy answers C y := by
      constructor
      · exact List.forall_mem_append.mpr ⟨hx.1, List.forall_mem_singleton.mpr rfl⟩
      · refine List.forall_mem_append.mpr ⟨fun c hc => ?_, List.forall_mem_singleton.mpr hq⟩
        exact hC.passes (hC.send _ _ _ (hx.2 c hc)) hy
    obtain ⟨r, x', s', ha, hx'⟩ := ih (answers q) (hp _) ⟨s.db, y⟩ hserved
    exact ⟨r, x', s', .call (alone_of_passes hy (.answer ha)), hx'⟩
  | await q k ih => exact hp.elim
  | clock k ih =>
    obtain ⟨r, x', s', ha, hx'⟩ := ih (S.now s.ext) (hp _) s hx
    exact ⟨r, x', s', .clock ha, hx'⟩
  | fresh k ih =>
    obtain ⟨r, x', s', ha, hx'⟩ := ih ident (hp _) (x := x.given ident) s hx
    exact ⟨r, x', s', .fresh ha, hx'⟩

/-- What has been called stays called. -/
theorem After.of_calls {Q : Except σ.Error α → Txn σ → Shared σ → Prop}
    (h : ∀ r x' s', x.calls <+: x'.calls → Q r x' s') : p.After S Q x s :=
  after_iff.mpr fun r x' s' ha => h r x' s' ha.calls_prefix

variable {φ : σ.Answer → Prop}

/-- A call that has got another answer need not be followed. -/
theorem After.answered {Q : Except σ.Error α → Txn σ → Shared σ → Prop} {q : σ.Request}
    {a : σ.Answer} (h : φ a → p.After S (fun r x' s' => (∀ c ∈ x'.calls, φ c.2) → Q r x' s')
      (x.answered q a) s) :
    p.After S (fun r x' s' => (∀ c ∈ x'.calls, φ c.2) → Q r x' s') (x.answered q a) s := by
  by_cases ha : φ a
  · exact h ha
  · refine .of_calls fun r x' s' hpre hall => absurd (hall (q, a) (hpre.subset ?_)) ha
    exact List.mem_append_right _ List.mem_cons_self

/-- Code that raises nothing where `I` holds ends by a value, as long as its answers have `φ`. -/
theorem Quiet.after {I : σ.Db → Prop} (hp : p.Quiet φ I) (hlasting : Lasting I) (hI : I s.db) :
    p.After S (fun r x' _ => (∀ c ∈ x'.calls, φ c.2) → ∀ e, r ≠ .error e) x s := by
  induction p generalizing x s with
  | done v => exact fun _ _ _ _ he => nomatch he
  | throw e => exact hp.elim
  | stmt q k ih =>
    obtain ⟨eff, hq, hk⟩ := hp _ _ (hlasting x.pending s.db hI)
    rw [after_stmt_ok hq]
    exact fun y _ => ih _ hk hI
  | call q k ih => exact fun y _ z _ a => .answered fun ha => ih a (hp a ha) hI
  | await q k ih => exact fun y _ a => .answered fun ha => ih a (hp a ha) hI
  | clock k ih => exact fun y _ => ih _ (hp _) hI
  | fresh k ih => exact fun y _ i => ih i (hp i) hI

/-- The same for code that begins well. -/
theorem Begins.after (hp : p.Begins φ s.db) (hx : x.pending = []) :
    p.After S (fun r x' _ => (∀ c ∈ x'.calls, φ c.2) → ∀ e, r ≠ .error e) x s := by
  induction p generalizing s with
  | stmt q k =>
    obtain ⟨eff, hq, I, hI, hd, hk⟩ := hp fun _ _ => false
    have hq : q (fun _ _ => false) (replay x.pending s.db) = .ok eff := by rw [hx]; exact hq
    rw [after_stmt_ok hq]
    exact fun y _ => hk.after hI hd
  | clock k ih => exact fun y _ => ih _ (hp _)
  | done | throw | call | await | fresh => exact hp.elim

end Prog

/-- What is known of a session that runs alone and commits, and of the states it has read. -/
theorem Contract.Valid.ends_past {P : Contract σ} {jobs : σ.Job → Prop} (hv : P.Valid S jobs)
    {j : σ.Job} (hj : jobs j) (hauto : S.autocommit j = false) {v : σ.Result}
    (h : Ends S j s (some (.ok v)) x s') (hi : P.inv s) :
    P.inv s' ∧ ∃ q, P.inv q ∧ P.Past x q ∧ P.post j v x q ∧ q.db = s.db ∧
      s' = ⟨replay x.pending s.db, q.ext⟩ := by
  obtain ⟨hi', -⟩ := hv.ends hj hauto h hi
  obtain ⟨ha⟩ := h
  have hok : P.Ok S j (S.program j) {} s := by
    simpa only [Contract.Meets, hauto, Bool.false_eq_true, if_false] using hv.program j hj s hi
  obtain ⟨hq, -, hpast, hpost⟩ := hok.alone hv ha hi (by simp [Contract.Past])
  have hdb := ha.db_eq
  exact ⟨hi', _, hq, hpast, hpost v rfl, hdb, by rw [settled, hdb]⟩

end

end ReadCommitted
