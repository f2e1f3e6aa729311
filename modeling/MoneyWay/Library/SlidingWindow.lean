import Mathlib.Data.List.TakeWhile
import Mathlib.Order.Lattice
import Mathlib.Order.Monotone.Defs

/-!
# Limits on a sliding window

At most `n` arrivals in any window of a given length are let through: an arrival
is, as long as fewer than `n` of those let through before it lie in the window
that ends with it. `admitted` says so over the whole past; a queue that forgets
from its front what no longer counts gives the same answers (`Keeps`). Of the
times only the order is used, and that taking a window's length away keeps it,
as it does for rounded numbers too.
-/

set_option autoImplicit false

namespace SlidingWindow

variable {τ : Type*} [LinearOrder τ] [Sub τ]

/-- How many of the times lie in the window of length `w` that ends at `now`. -/
def load (w now : τ) (times : List τ) : ℕ := times.countP fun t => now - w < t ∧ t ≤ now

/-- Which arrivals are let through, the last one first. -/
def admitted (n : ℕ) (w : τ) : List τ → List τ
  | [] => []
  | now :: earlier =>
    if load w now (admitted n w earlier) < n then now :: admitted n w earlier
    else admitted n w earlier

theorem admitted_sublist (n : ℕ) (w : τ) (times : List τ) :
    (admitted n w times).Sublist times := by
  induction times with
  | nil => exact List.Sublist.refl _
  | cons now earlier ih =>
    rw [admitted]
    split
    · exact ih.cons_cons now
    · exact ih.cons now

/-- No window holds more than the limit. -/
theorem load_admitted_le {w : τ} (hw : Monotone fun t : τ => t - w) (n : ℕ) {times : List τ}
    (hclock : times.Pairwise (· ≥ ·)) (t : τ) : load w t (admitted n w times) ≤ n := by
  induction times with
  | nil => exact Nat.zero_le n
  | cons now earlier ih =>
    have hpast := ih hclock.of_cons
    rw [admitted]
    by_cases hroom : load w now (admitted n w earlier) < n
    · rw [if_pos hroom, load, List.countP_cons]
      by_cases hin : t - w < now ∧ now ≤ t
      · -- The window at `t` holds `now`, so what else it holds counted at `now`.
        have hsub : load w t (admitted n w earlier) ≤ load w now (admitted n w earlier) := by
          apply List.countP_mono_left
          intro a ha hat
          rw [decide_eq_true_eq] at hat ⊢
          have hold : a ≤ now :=
            List.rel_of_pairwise_cons hclock ((admitted_sublist n w earlier).subset ha)
          have hback : now - w ≤ t - w := hw hin.2
          exact ⟨lt_of_le_of_lt hback hat.1, hold⟩
        rw [if_pos (by simpa using hin)]
        rw [load] at hsub
        omega
      · rw [if_neg (by simpa using hin)]
        exact hpast
    · rw [if_neg hroom]
      exact hpast

/-! ## A queue of the times that still count -/

/-- The queue, its front first, holds what is left of the times let through, the
last one first: what is gone lies before every window from `now` on. -/
def Keeps (w now : τ) (times queue : List τ) : Prop :=
  ∃ gone, times = queue.reverse ++ gone ∧ ∀ t ∈ gone, t ≤ now - w

theorem Keeps.nil (w now : τ) : Keeps w now [] [] := by
  refine ⟨[], rfl, ?_⟩
  intro t ht
  cases ht

theorem Keeps.later {w now now' : τ} {times queue : List τ} (hw : Monotone fun t : τ => t - w)
    (h : Keeps w now times queue) (hle : now ≤ now') : Keeps w now' times queue := by
  obtain ⟨gone, heq, hgone⟩ := h
  exact ⟨gone, heq, fun t ht => (hgone t ht).trans (hw hle)⟩

/-- Times at the front that no longer count may go. -/
theorem Keeps.expire {w now : τ} {times queue : List τ} (h : Keeps w now times queue) :
    Keeps w now times (queue.dropWhile (· ≤ now - w)) := by
  obtain ⟨gone, heq, hgone⟩ := h
  refine ⟨(queue.takeWhile (· ≤ now - w)).reverse ++ gone, ?_, ?_⟩
  · rw [heq, ← List.append_assoc, ← List.reverse_append, List.takeWhile_append_dropWhile]
  · intro t ht
    rw [List.mem_append, List.mem_reverse] at ht
    cases ht with
    | inl hfront => simpa using List.mem_takeWhile_imp hfront
    | inr hold => exact hgone t hold

theorem Keeps.push {w now : τ} {times queue : List τ} (h : Keeps w now times queue) :
    Keeps w now (now :: times) (queue ++ [now]) := by
  obtain ⟨gone, heq, hgone⟩ := h
  refine ⟨gone, ?_, hgone⟩
  rw [heq, List.reverse_append]
  rfl

omit [Sub τ] in
/-- In a queue in order, what is left after expiry is above the threshold. -/
theorem lt_of_mem_dropWhile {θ t : τ} {queue : List τ} (hsorted : queue.Pairwise (· ≤ ·))
    (ht : t ∈ queue.dropWhile (· ≤ θ)) : θ < t := by
  induction queue with
  | nil => cases ht
  | cons a queue ih =>
    by_cases ha : a ≤ θ
    · rw [List.dropWhile_cons_of_pos (by simpa using ha)] at ht
      exact ih hsorted.of_cons ht
    · rw [List.dropWhile_cons_of_neg (by simpa using ha)] at ht
      cases List.mem_cons.mp ht with
      | inl he => exact he ▸ not_le.mp ha
      | inr hmem => exact lt_of_lt_of_le (not_le.mp ha) (List.rel_of_pairwise_cons hsorted hmem)

/-- The length of the queue is what the window holds. -/
theorem Keeps.length_expire {w now : τ} {times queue : List τ} (h : Keeps w now times queue)
    (hclock : times.Pairwise (· ≥ ·)) (hnow : ∀ t ∈ times, t ≤ now) :
    (queue.dropWhile (· ≤ now - w)).length = load w now times := by
  have hqueue : queue.Pairwise (· ≤ ·) := by
    obtain ⟨gone, heq, -⟩ := h
    rw [heq] at hclock
    exact List.pairwise_reverse.mp (List.pairwise_append.mp hclock).1
  obtain ⟨gone, heq, hgone⟩ := h.expire
  have hleft : (queue.dropWhile (· ≤ now - w)).reverse.countP
      (fun t => now - w < t ∧ t ≤ now) = (queue.dropWhile (· ≤ now - w)).reverse.length := by
    apply List.countP_eq_length.mpr
    intro t ht
    rw [List.mem_reverse] at ht
    have htimes : t ∈ times := by
      rw [heq]
      exact List.mem_append_left _ (List.mem_reverse.mpr ht)
    simpa using ⟨lt_of_mem_dropWhile hqueue ht, hnow t htimes⟩
  have hnone : gone.countP (fun t => now - w < t ∧ t ≤ now) = 0 := by
    apply List.countP_eq_zero.mpr
    intro t ht
    have hold := hgone t ht
    simp [not_lt.mpr hold]
  rw [load, heq, List.countP_append, hleft, hnone, List.length_reverse, Nat.add_zero]

end SlidingWindow
