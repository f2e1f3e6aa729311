import MoneyWay.Histories
import MoneyWay.Library.ReadCommitted.After

/-!
# Requests one after the other

How the clock goes while a session runs alone, and the rules for what holds at its every end.
-/

set_option autoImplicit false

namespace MoneyWay

open Keyed ReadCommitted Python Prog

variable {unicode : Unicode} {y y' : Bingx}

theorem passes_now (h : Passes (bank unicode) y y') : y.now ≤ y'.now := by
  induction h with
  | refl => exact le_refl _
  | tail _ he ih =>
    obtain ⟨e, he⟩ := he
    refine ih.trans ?_
    cases e with
    | accept q | drop q =>
      simp only [bank, Bingx.event] at he
      split at he
      · cases he
        exact le_refl _
      · cases he
    | tick delta =>
      cases he
      exact Int.le_add_of_nonneg_right (Int.natCast_nonneg delta)

/-- Any later time comes. -/
theorem exists_passes (unicode : Unicode) {now : Timestamp} (h : y.now ≤ now) :
    ∃ y', Passes (bank unicode) y y' ∧ y'.now = now := by
  have hdelta : y.now + ((now - y.now).toNat : ℤ) = now := by
    rw [Int.toNat_of_nonneg (Int.sub_nonneg_of_le h)]
    exact add_sub_cancel _ _
  exact ⟨_, .single ⟨.tick (now - y.now).toNat, rfl⟩, hdelta⟩

/-! ## Rules for the statements of a session -/

variable {α β : Type} {s : Shared signature} {x : Txn signature}
  {Q : Except Error α → Txn signature → Shared signature → Prop} {q : Statement β}
  {k : β → Handler α}

theorem after_exec_bind
    (herror : ∀ e y, q (fun _ _ => false) (replay x.pending s.db) = .error e →
      Q (.error e) x ⟨s.db, y⟩)
    (hok : ∀ eff y, q (fun _ _ => false) (replay x.pending s.db) = .ok eff →
      Passes (bank unicode) s.ext y →
      (k eff.value).After (bank unicode) Q (x.executed ⟨s.db, y⟩ eff) ⟨s.db, y⟩) :
    (exec q >>= k).After (bank unicode) Q x s := by
  rw [exec_bind]
  cases hq : q (fun _ _ => false) (replay x.pending s.db) with
  | error e => exact (after_stmt_error (S := bank unicode) hq).mpr fun y _ => herror e y hq
  | ok eff => exact (after_stmt_ok (S := bank unicode) hq).mpr fun y hy => hok eff y hq hy

theorem of_after_exec_bind {eff : Effect Write Row β}
    (h : (exec q >>= k).After (bank unicode) Q x s)
    (hq : q (fun _ _ => false) (replay x.pending s.db) = .ok eff) :
    (k eff.value).After (bank unicode) Q (x.executed s eff) s := by
  rw [exec_bind] at h
  exact (after_stmt_ok (S := bank unicode) hq).mp h s.ext .refl

theorem of_after_uuid_bind {k : String → Handler α}
    (h : (uuid >>= k).After (bank unicode) Q x s) (i : String) :
    (k i).After (bank unicode) Q (x.given i) s := h s.ext .refl i

theorem of_after_exec_bind_error {e : Error}
    (h : (exec q >>= k).After (bank unicode) Q x s)
    (hq : q (fun _ _ => false) (replay x.pending s.db) = .error e) : Q (.error e) x s := by
  rw [exec_bind] at h
  exact (after_stmt_error (S := bank unicode) hq).mp h s.ext .refl

theorem after_exec {Q : Except Error β → Txn signature → Shared signature → Prop}
    (herror : ∀ e y, q (fun _ _ => false) (replay x.pending s.db) = .error e →
      Q (.error e) x ⟨s.db, y⟩)
    (hok : ∀ eff y z, q (fun _ _ => false) (replay x.pending s.db) = .ok eff →
      Q (.ok eff.value) (x.executed ⟨s.db, y⟩ eff) ⟨s.db, z⟩) :
    (exec q).After (bank unicode) Q x s := by
  have hbind : (exec q >>= done).After (bank unicode) Q x s :=
    after_exec_bind herror fun eff y hq _ z _ => hok eff y z hq
  exact hbind

theorem after_now_bind {k : Timestamp → Handler α}
    (h : ∀ y : Bingx, Passes (bank unicode) s.ext y →
      (k y.now).After (bank unicode) Q x ⟨s.db, y⟩) :
    (Prog.now >>= k).After (bank unicode) Q x s := h

theorem of_after_now_bind {k : Timestamp → Handler α}
    (h : (Prog.now >>= k).After (bank unicode) Q x s) {y : Bingx}
    (hy : Passes (bank unicode) s.ext y) : (k y.now).After (bank unicode) Q x ⟨s.db, y⟩ := h y hy

end MoneyWay
