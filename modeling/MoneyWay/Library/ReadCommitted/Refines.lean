import MoneyWay.Library.ReadCommitted.Soundness

/-!
# Refinement

A specification is a machine with labelled steps. A system refines it when what can be
observed of each transition, if anything, is the label of a step from the machine's state that
goes with the world before to one that goes with the world after. Then what is observed of a
whole history is a run of the machine.

## Main definitions

- `Machine`, `Machine.Run` — specifications and their runs, newest label first

## Main results

- `Contract.Valid.refines` — from one transition to whole histories
-/

set_option autoImplicit false

namespace ReadCommitted

universe u v

/-- A specification: where it starts, and its steps with what is seen of them. -/
structure Machine (Label : Type u) where
  State : Type v
  init : State
  Step : State → Label → State → Prop

inductive Machine.Run {Label : Type u} (M : Machine.{u, v} Label) : List Label → M.State → Prop
  | nil : M.Run [] M.init
  | snoc {ls : List Label} {b b' : M.State} {l : Label} :
      M.Run ls b → M.Step b l b' → M.Run (l :: ls) b'

namespace Machine.Run

variable {Label : Type u} {M : Machine.{u, v} Label} {ls : List Label} {b : M.State}

/-- What holds at the start and is kept by every step holds in every run. -/
theorem invariant {I : M.State → Prop} (h : M.Run ls b) (init : I M.init)
    (step : ∀ b l b', I b → M.Step b l b' → I b') : I b := by
  induction h with
  | nil => exact init
  | snoc _ hstep ih => exact step _ _ _ ih hstep

end Machine.Run

section

variable {σ : Signature} [Store σ.Db σ.Write σ.Row] [DecidableEq σ.Row] {P : Contract σ}
  {S : System σ} {jobs : σ.Job → Prop} {Label : Type u} {M : Machine.{u, v} Label}

/-- The transition shows nothing and leaves the machine where it is, or shows the label of a
step of the machine. -/
def Machine.Matches (M : Machine.{u, v} Label) (R : World σ → M.State → Prop)
    (observe : Transition σ → Option Label) (x : Transition σ) (b : M.State) : Prop :=
  observe x = none ∧ R x.after b ∨
    ∃ l b', observe x = some l ∧ M.Step b l b' ∧ R x.after b'

/-- The rule for refinement: one transition at a time. -/
theorem Contract.Valid.refines (hv : P.Valid S jobs) {start : Shared σ} (hi : P.inv start)
    {R : World σ → M.State → Prop} {observe : Transition σ → Option Label}
    (base : R (.idle start) M.init)
    (step : ∀ tr w a w' b, Run S start tr w → w.step S a = some w' → P.Safe S jobs w →
      P.Safe S jobs w' → P.Change S jobs ⟨w, a, w'⟩ → R w b → M.Matches R observe ⟨w, a, w'⟩ b)
    {tr : List (Transition σ)} {w : World σ} (h : ReadCommitted.Run S start tr w)
    (hj : Contract.Starts jobs tr) : ∃ b, M.Run (tr.filterMap observe) b ∧ R w b := by
  induction h with
  | nil => exact ⟨M.init, .nil, base⟩
  | @snoc tr w w' a hr hstep ih =>
    have hj' : Starts jobs tr := fun x hx => hj x (List.mem_cons_of_mem _ hx)
    obtain ⟨b, hrun, hR⟩ := ih hj'
    have hsafe := hv.run hi hr hj'
    rcases step tr w a w' b hr hstep hsafe (hv.run hi (hr.snoc hstep) hj) (hsafe.change hstep) hR
      with ⟨hnone, hR'⟩ | ⟨l, b', hsome, hs, hR'⟩
    · refine ⟨b, ?_, hR'⟩
      rwa [List.filterMap_cons_none hnone]
    · refine ⟨b', ?_, hR'⟩
      rw [List.filterMap_cons_some hsome]
      exact hrun.snoc hs

end

end ReadCommitted
