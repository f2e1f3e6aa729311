import Mathlib.Algebra.Order.BigOperators.Group.List
import Mathlib.Data.List.Perm.Subperm
import MoneyWay.Library.ReadCommitted.Refines

/-!
# Escrow

Somebody takes in a price and owes something for it. Each contract is offered once; it is paid
for at most once, with the price, or refused; what is due is given out at most once, and only for
a contract that has been paid for; and what was paid for may be taken back, before or after.

## Main definitions

- `Book`, `Event`, `Step` — what is kept of the contracts, and what may happen next
- `escrow` — the machine, for any terms with a price and something due

## Main results

- `Book.Kept` — what every run keeps
- `Book.Kept.sum_released_le` — what is given out is worth no more than what was taken in
-/

set_option autoImplicit false

namespace Escrow

variable {ι τ α β : Type} [DecidableEq ι]

/-- The terms of the contracts that have been offered, and what became of them, newest first. -/
structure Book (ι τ : Type) where
  terms : ι → Option τ := fun _ => none
  received : List ι := []
  refused : List ι := []
  released : List ι := []
  reversed : List ι := []

inductive Event (ι τ α β : Type) where
  | offer (i : ι) (q : τ)
  | receive (i : ι) (a : α)
  | refuse (i : ι)
  | release (i : ι) (b : β)
  | reverse (i : ι)

inductive Step (price : τ → α) (due : τ → β) : Book ι τ → Event ι τ α β → Book ι τ → Prop
  | offer {b : Book ι τ} {i : ι} {q : τ} : b.terms i = none →
      Step price due b (.offer i q) { b with terms := Function.update b.terms i (some q) }
  | receive {b : Book ι τ} {i : ι} {q : τ} : b.terms i = some q → i ∉ b.received →
      i ∉ b.refused →
      Step price due b (.receive i (price q)) { b with received := i :: b.received }
  | refuse {b : Book ι τ} {i : ι} {q : τ} : b.terms i = some q → i ∉ b.received →
      i ∉ b.refused → Step price due b (.refuse i) { b with refused := i :: b.refused }
  | release {b : Book ι τ} {i : ι} {q : τ} : b.terms i = some q → i ∈ b.received →
      i ∉ b.released →
      Step price due b (.release i (due q)) { b with released := i :: b.released }
  | reverse {b : Book ι τ} {i : ι} : i ∈ b.received → i ∉ b.reversed →
      Step price due b (.reverse i) { b with reversed := i :: b.reversed }

/-- The machine, with no contract yet. -/
def escrow (ι : Type) [DecidableEq ι] (price : τ → α) (due : τ → β) :
    ReadCommitted.Machine (Event ι τ α β) where
  State := Book ι τ
  init := {}
  Step := Step price due

/-- What is given out has been taken in before, and each only once. -/
structure Book.Kept (b : Book ι τ) : Prop where
  received : b.received.Nodup
  released : b.released.Nodup
  reversed : b.reversed.Nodup
  offered : ∀ i ∈ b.received, ∃ q, b.terms i = some q
  covered : ∀ i ∈ b.released, i ∈ b.received
  returned : ∀ i ∈ b.reversed, i ∈ b.received
  apart : ∀ i ∈ b.received, i ∉ b.refused

variable {price : τ → α} {due : τ → β}

theorem Step.kept {b b' : Book ι τ} {e : Event ι τ α β} (h : Step price due b e b')
    (hb : b.Kept) : b'.Kept := by
  cases h with
  | @offer i q hnone =>
    refine ⟨hb.received, hb.released, hb.reversed, fun j hj => ?_, hb.covered, hb.returned,
      hb.apart⟩
    obtain ⟨q', hq'⟩ := hb.offered j hj
    have hne : j ≠ i := by
      rintro rfl
      rw [hnone] at hq'
      cases hq'
    exact ⟨q', (Function.update_of_ne hne _ _).trans hq'⟩
  | @receive i q hq hnew hopen =>
    refine ⟨List.nodup_cons.mpr ⟨hnew, hb.received⟩, hb.released, hb.reversed, ?_,
      fun j hj => List.mem_cons_of_mem _ (hb.covered j hj),
      fun j hj => List.mem_cons_of_mem _ (hb.returned j hj), ?_⟩
    · rw [List.forall_mem_cons]
      exact ⟨⟨q, hq⟩, hb.offered⟩
    · rw [List.forall_mem_cons]
      exact ⟨hopen, hb.apart⟩
  | @refuse i q hq hnew =>
    refine ⟨hb.received, hb.released, hb.reversed, hb.offered, hb.covered, hb.returned,
      fun j hj => ?_⟩
    rw [List.mem_cons, not_or]
    refine ⟨?_, hb.apart j hj⟩
    rintro rfl
    exact hnew hj
  | @release i q hq hin hnew =>
    refine ⟨hb.received, List.nodup_cons.mpr ⟨hnew, hb.released⟩, hb.reversed, hb.offered, ?_,
      hb.returned, hb.apart⟩
    rw [List.forall_mem_cons]
    exact ⟨hin, hb.covered⟩
  | @reverse i hin hnew =>
    refine ⟨hb.received, hb.released, List.nodup_cons.mpr ⟨hnew, hb.reversed⟩, hb.offered,
      hb.covered, ?_, hb.apart⟩
    rw [List.forall_mem_cons]
    exact ⟨hin, hb.returned⟩

theorem kept_of_run {es : List (Event ι τ α β)} {b : Book ι τ}
    (h : (escrow ι price due).Run es b) : b.Kept :=
  h.invariant (I := fun b : Book ι τ => b.Kept)
    ⟨.nil, .nil, .nil, fun _ h => absurd h List.not_mem_nil, fun _ h => absurd h List.not_mem_nil,
      fun _ h => absurd h List.not_mem_nil, fun _ h => absurd h List.not_mem_nil⟩
    fun _ _ _ hb (hs : Step price due _ _ _) => hs.kept hb

omit [DecidableEq ι] in
/-- If each payout is worth no more than what is taken in for it, this is so of all together. -/
theorem Book.Kept.sum_released_le {G : Type} [AddCommMonoid G] [PartialOrder G]
    [IsOrderedAddMonoid G] {b : Book ι τ} (hb : b.Kept) {cost value : ι → G}
    (hle : ∀ i ∈ b.released, cost i ≤ value i) (hpos : ∀ i ∈ b.received, 0 ≤ value i) :
    (b.released.map cost).sum ≤ (b.received.map value).sum := by
  obtain ⟨l, hperm, hsub⟩ := hb.released.subperm hb.covered
  calc (b.released.map cost).sum
      ≤ (b.released.map value).sum := List.sum_le_sum hle
    _ = (l.map value).sum := (hperm.map value).sum_eq.symm
    _ ≤ (b.received.map value).sum := by
      refine (hsub.map value).sum_le_sum fun a ha => ?_
      obtain ⟨i, hi, rfl⟩ := List.mem_map.mp ha
      exact hpos i hi

end Escrow
