import MoneyWay.Library.ReadCommitted.Alone

/-!
# What holds at every end

The weakest condition for a program that runs alone to end as a postcondition says, whatever it
is answered and however much time passes.

## Main definitions

- `Prog.After` — every end of the program, but for a lost connection, meets the postcondition

## Main results

- `Prog.after_iff` — this is what holds of all runs
- `Prog.after_bind` — the rule for one program after the other
-/

set_option autoImplicit false

namespace ReadCommitted

namespace Prog

variable {σ : Signature} [Store σ.Db σ.Write σ.Row] {S : System σ} {α β : Type}

/-- Every end meets the postcondition, by a value or by an exception. -/
def After (S : System σ) (Q : Except σ.Error α → Txn σ → Shared σ → Prop) :
    Prog σ α → Txn σ → Shared σ → Prop
  | .done v, x, s => ∀ y, Passes S s.ext y → Q (.ok v) x ⟨s.db, y⟩
  | .throw e, x, s => ∀ y, Passes S s.ext y → Q (.error e) x ⟨s.db, y⟩
  | .stmt q k, x, s =>
    match q (fun _ _ => false) (replay x.pending s.db) with
    | .error e => ∀ y, Passes S s.ext y → Q (.error e) x ⟨s.db, y⟩
    | .ok eff => ∀ y, Passes S s.ext y →
      (k eff.value).After S Q (x.executed ⟨s.db, y⟩ eff) ⟨s.db, y⟩
  | .call q k, x, s => ∀ y, Passes S s.ext y → ∀ z, Passes S (S.send q y) z →
    ∀ a, (k a).After S Q (x.answered q a) ⟨s.db, z⟩
  | .await q k, x, s => ∀ y, Passes S s.ext y → ∀ a, (k a).After S Q (x.answered q a) ⟨s.db, y⟩
  | .clock k, x, s => ∀ y, Passes S s.ext y → (k (S.now y)).After S Q x ⟨s.db, y⟩
  | .fresh k, x, s => ∀ y, Passes S s.ext y → ∀ i, (k i).After S Q (x.given i) ⟨s.db, y⟩

variable {Q : Except σ.Error α → Txn σ → Shared σ → Prop} {p : Prog σ α} {x x' : Txn σ}
  {s s' : Shared σ}

theorem after_stmt {q : Stmt σ.Db σ.Write σ.Row σ.Error β} {k : β → Prog σ α} :
    (Prog.stmt q k).After S Q x s =
      match q (fun _ _ => false) (replay x.pending s.db) with
      | .error e => ∀ y, Passes S s.ext y → Q (.error e) x ⟨s.db, y⟩
      | .ok eff => ∀ y, Passes S s.ext y →
        (k eff.value).After S Q (x.executed ⟨s.db, y⟩ eff) ⟨s.db, y⟩ := by
  simp only [After]

/-- Time may pass first. -/
theorem After.passes (h : p.After S Q x s) {y : σ.External} (hy : Passes S s.ext y) :
    p.After S Q x ⟨s.db, y⟩ := by
  cases p with
  | done | throw | call | await | clock | fresh => exact fun z hz => h z (hy.trans hz)
  | stmt q k =>
    simp only [after_stmt] at h ⊢
    split
    · next hq => rw [hq] at h; exact fun z hz => h z (hy.trans hz)
    · next hq => rw [hq] at h; exact fun z hz => h z (hy.trans hz)

theorem After.of_alone (h : p.After S Q x s) {r : Option (Except σ.Error α)}
    (ha : Alone S p x s r x' s') : ∀ v, r = some v → Q v x' s' := by
  induction ha with
  | done | throw =>
    intro v hv
    cases hv
    exact h _ .refl
  | lost =>
    intro v hv
    cases hv
  | fail hq =>
    intro v hv
    cases hv
    simp only [after_stmt, hq] at h
    exact h _ .refl
  | stmt hq _ ih =>
    simp only [after_stmt, hq] at h
    exact ih (h _ .refl)
  | call _ ih => exact ih fun y hy => h _ .refl y hy
  | answer _ ih => exact ih (h _ .refl _)
  | clock _ ih => exact ih (h _ .refl)
  | fresh _ ih => exact ih (h _ .refl _)
  | event he _ ih => exact ih (h.passes (.single ⟨_, he⟩))

theorem alone_of_passes {r : Option (Except σ.Error α)} {y : σ.External} (hy : Passes S s.ext y)
    (h : Alone S p x ⟨s.db, y⟩ r x' s') : Alone S p x s r x' s' := by
  obtain ⟨d, z⟩ := s
  change Passes S z y at hy
  induction hy using Relation.ReflTransGen.head_induction_on with
  | refl => exact h
  | head he _ ih =>
    obtain ⟨e, he⟩ := he
    exact .event he (ih h)

/-- What holds after the program is what holds at the end of all its runs. -/
theorem after_iff : p.After S Q x s ↔
    ∀ r x' s', Alone S p x s (some r) x' s' → Q r x' s' := by
  refine ⟨fun h r x' s' ha => h.of_alone ha r rfl, fun h => ?_⟩
  induction p generalizing x s with
  | done v => exact fun y hy => h _ _ _ (alone_of_passes hy .done)
  | throw e => exact fun y hy => h _ _ _ (alone_of_passes hy .throw)
  | stmt q k ih =>
    simp only [after_stmt]
    split
    · next e hq => exact fun y hy => h _ _ _ (alone_of_passes hy (.fail hq))
    · next eff hq =>
      exact fun y hy => ih _ fun r x' s' ha => h r x' s' (alone_of_passes hy (.stmt hq ha))
  | call q k ih =>
    exact fun y hy z hz a => ih a fun r x' s' ha =>
      h r x' s' (alone_of_passes hy (.call (alone_of_passes hz (.answer ha))))
  | await q k ih =>
    exact fun y hy a => ih a fun r x' s' ha => h r x' s' (alone_of_passes hy (.answer ha))
  | clock k ih =>
    exact fun y hy => ih _ fun r x' s' ha => h r x' s' (alone_of_passes hy (.clock ha))
  | fresh k ih =>
    exact fun y hy i => ih i fun r x' s' ha => h r x' s' (alone_of_passes hy (.fresh ha))

theorem after_stmt_ok {q : Stmt σ.Db σ.Write σ.Row σ.Error β} {k : β → Prog σ α}
    {eff : Effect σ.Write σ.Row β} (hq : q (fun _ _ => false) (replay x.pending s.db) = .ok eff) :
    (Prog.stmt q k).After S Q x s ↔ ∀ y, Passes S s.ext y →
      (k eff.value).After S Q (x.executed ⟨s.db, y⟩ eff) ⟨s.db, y⟩ := by
  simp only [after_stmt, hq]

theorem after_stmt_error {q : Stmt σ.Db σ.Write σ.Row σ.Error β} {k : β → Prog σ α} {e : σ.Error}
    (hq : q (fun _ _ => false) (replay x.pending s.db) = .error e) :
    (Prog.stmt q k).After S Q x s ↔ ∀ y, Passes S s.ext y → Q (.error e) x ⟨s.db, y⟩ := by
  simp only [after_stmt, hq]

/-- The identifiers a session has been given stay with it. -/
theorem After.of_idents (h : ∀ r x' s', x.idents <+: x'.idents → Q r x' s') : p.After S Q x s :=
  after_iff.mpr fun r x' s' ha => h r x' s' ha.idents_prefix

theorem After.mono (h : p.After S Q x s) {R : Except σ.Error α → Txn σ → Shared σ → Prop}
    (hQ : ∀ r x s, Q r x s → R r x s) : p.After S R x s :=
  after_iff.mpr fun r x' s' ha => hQ r x' s' (after_iff.mp h r x' s' ha)

/-- One program after the other. -/
theorem after_bind {f : α → Prog σ β} {R : Except σ.Error β → Txn σ → Shared σ → Prop} :
    (p >>= f).After S R x s ↔
      p.After S (fun r x s => match r with
        | .ok v => (f v).After S R x s
        | .error e => R (.error e) x s) x s := by
  induction p generalizing x s with
  | done v => exact ⟨fun h y hy => h.passes hy, fun h => h _ .refl⟩
  | throw e => exact Iff.rfl
  | stmt q k ih =>
    simp only [stmt_bind, after_stmt]
    split
    · exact Iff.rfl
    · exact forall₂_congr fun y hy => ih _
  | call q k ih => exact forall₄_congr fun y hy z hz => forall_congr' fun a => ih a
  | await q k ih => exact forall₃_congr fun y hy a => ih a
  | clock k ih => exact forall₂_congr fun y hy => ih _
  | fresh k ih => exact forall₃_congr fun y hy i => ih i

end Prog

end ReadCommitted
