import MoneyWay.Library.ReadCommitted.Alone

/-!
# What can still be reached

A world can go on to another one by actions that start only some jobs. Every world can go on to
the one in which all sessions have been rolled back, and from there to what a session that runs
alone leaves.

## Main definitions

- `CanReach` — a world can go on to another one

## Main results

- `canReach_idle` — all open sessions can be rolled back
- `Ends.canReach` — a session that runs alone can be run
-/

set_option autoImplicit false

namespace ReadCommitted

open Keyed

section

variable {σ : Signature} [Store σ.Db σ.Write σ.Row] [DecidableEq σ.Row] {S : System σ}
  {jobs : σ.Job → Prop} {w w' w'' : World σ} {s s' : Shared σ}

variable (S jobs) in
/-- There are actions that lead from one world to the other, and start only such jobs. -/
def CanReach (w w' : World σ) : Prop :=
  ∃ as, w.steps S as = some w' ∧ ∀ a ∈ as, ∀ j ∈ a.job?, jobs j

namespace CanReach

theorem refl (w : World σ) : CanReach S jobs w w := ⟨[], rfl, by simp⟩

theorem trans (h : CanReach S jobs w w') (h' : CanReach S jobs w' w'') : CanReach S jobs w w'' := by
  obtain ⟨as, has, hjobs⟩ := h
  obtain ⟨bs, hbs, hjobs'⟩ := h'
  refine ⟨as ++ bs, by rw [World.steps_append, has, Option.bind_some, hbs], ?_⟩
  exact List.forall_mem_append.mpr ⟨hjobs, hjobs'⟩

/-- One action that starts no job. -/
theorem step {a : Action σ} (h : w.step S a = some w') (ha : a.job? = none) :
    CanReach S jobs w w' :=
  ⟨[a], by rw [World.steps, h, Option.bind_some, World.steps], by simp [ha]⟩

/-- What a history goes on to ends a history. -/
theorem run {start : Shared σ} {tr : List (Transition σ)} (h : CanReach S jobs w w')
    (hr : Run S start tr w) : ∃ tr', Run S start (tr' ++ tr) w' := by
  obtain ⟨as, has, -⟩ := h
  exact hr.append_steps has

end CanReach

/-- All open sessions can be rolled back. -/
theorem canReach_idle (w : World σ) : CanReach S jobs w (.idle w.shared) := by
  induction hn : w.sessions.rows.length using Nat.strongRecOn generalizing w with
  | ind n ih =>
    by_cases hempty : w.sessions.rows = []
    · have hidle : w = .idle w.shared := by
        obtain ⟨sh, ⟨rows, _⟩⟩ := w
        obtain rfl : rows = [] := hempty
        rfl
      rw [← hidle]
      exact .refl w
    · obtain ⟨s, hs⟩ := List.exists_mem_of_ne_nil _ hempty
      have hstep : w.step S (.rollback s.id) = some ⟨w.shared, w.sessions.erase s.id⟩ := by
        simp only [World.step, Table.find?_of_mem hs, Option.map_some]
      exact (CanReach.step hstep rfl).trans (ih _ (hn ▸ Table.length_erase_lt hs) _ rfl)

/-- What happens outside can happen while no session is open. -/
theorem Passes.canReach {y : σ.External} (h : Passes S s.ext y) :
    CanReach S jobs (.idle s) (.idle ⟨s.db, y⟩) := by
  induction h with
  | refl => exact .refl _
  | @tail y z _ he ih =>
    obtain ⟨e, he⟩ := he
    refine ih.trans (.step (a := .event e) ?_ rfl)
    show (S.event e y).map _ = _
    rw [he]
    rfl

/-- A session that runs alone can be run while no other is open. -/
theorem Ends.canReach {j : σ.Job} (hauto : S.autocommit j = false)
    {r : Option (Except σ.Error σ.Result)} {x : Txn σ} (h : Ends S j s r x s') (hj : jobs j) :
    CanReach S jobs (.idle s) (.idle s') := by
  obtain ⟨ha⟩ := h
  obtain ⟨as, has, hjobs⟩ := ha.exists_steps hauto 0
  refine ⟨.start 0 j :: as, ?_, List.forall_mem_cons.mpr ⟨fun k hk => ?_, fun a hmem k hk => ?_⟩⟩
  · rw [World.steps]
    exact has
  · obtain rfl : j = k := Option.some.inj hk
    exact hj
  · rw [hjobs a hmem] at hk
    cases hk

/-! Without a word about jobs: time that passes belongs to a history. -/

variable {start : Shared σ} {tr : List (Transition σ)}

theorem Passes.run {y : σ.External} (h : Passes S s.ext y) (hr : Run S start tr (.idle s)) :
    ∃ tr', Run S start (tr' ++ tr) (.idle ⟨s.db, y⟩) := by
  have hreach : CanReach S (fun _ => True) (.idle s) (.idle ⟨s.db, y⟩) := Passes.canReach h
  exact hreach.run hr

end

end ReadCommitted
