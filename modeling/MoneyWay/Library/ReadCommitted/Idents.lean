import MoneyWay.Library.ReadCommitted.Soundness

/-!
# Fresh identifiers

A session that asks for an identifier is given one. In a history that gives out none twice,
what a session has been given is its own: no other open session has it, and no session that
has committed had it.

## Main definitions

- `givenIdents` — the identifiers a history has given out
- `spentIdents` — those of the sessions that have committed
- `Allotted` — what holds of both and of the open sessions
-/

set_option autoImplicit false

namespace ReadCommitted

open Keyed

variable {σ : Signature}

/-- The identifier an action gives out. -/
def Action.given? : Action σ → Option σ.Ident
  | .give _ ident => some ident
  | _ => none

def givenIdents (tr : List (Transition σ)) : List σ.Ident := tr.filterMap fun x => x.action.given?

/-- The identifiers of the session that commits. -/
def Transition.spends (x : Transition σ) : List σ.Ident :=
  (x.commit?.map fun s => s.txn.idents).getD []

def spentIdents (tr : List (Transition σ)) : List σ.Ident := tr.flatMap Transition.spends

theorem Transition.Commits.spends {x : Transition σ} {s : Session σ} {v : σ.Result}
    (h : x.Commits s v) : x.spends = s.txn.idents := by
  rw [Transition.spends, h.commit?]
  rfl

theorem Transition.spends_eq_nil {x : Transition σ} (h : ∀ s v, ¬ x.Commits s v) :
    x.spends = [] := by
  rw [Transition.spends, Transition.commit?_eq_none h]
  rfl

theorem givenIdents_cons (x : Transition σ) (tr : List (Transition σ)) :
    givenIdents (x :: tr) = x.action.given?.toList ++ givenIdents tr := by
  cases h : x.action.given? <;> simp [givenIdents, h]

theorem spentIdents_cons (x : Transition σ) (tr : List (Transition σ)) :
    spentIdents (x :: tr) = x.spends ++ spentIdents tr := rfl

/-- Identifiers belong to one session each, open or committed. -/
structure Allotted (tr : List (Transition σ)) (w : World σ) : Prop where
  given : ∀ s ∈ w.sessions.rows, ∀ i ∈ s.txn.idents, i ∈ givenIdents tr
  unspent : ∀ s ∈ w.sessions.rows, ∀ i ∈ s.txn.idents, i ∉ spentIdents tr
  spent : ∀ i ∈ spentIdents tr, i ∈ givenIdents tr
  apart : ∀ s ∈ w.sessions.rows, ∀ t ∈ w.sessions.rows, s.id ≠ t.id →
    ∀ i ∈ s.txn.idents, i ∉ t.txn.idents

namespace Allotted

variable {tr : List (Transition σ)} {w : World σ}

/-- A session goes on with the identifiers it has, or a new one starts with none. -/
theorem put (h : Allotted tr w) {sh : Shared σ} {s : Session σ}
    (hs : ∀ i ∈ s.txn.idents, ∃ t ∈ w.sessions.rows, t.id = s.id ∧ i ∈ t.txn.idents) :
    Allotted tr ⟨sh, w.sessions.put s⟩ := by
  -- whoever has an identifier afterwards has had it before
  have hold : ∀ t ∈ (w.sessions.put s).rows, ∀ i ∈ t.txn.idents,
      ∃ u ∈ w.sessions.rows, u.id = t.id ∧ i ∈ u.txn.idents := by
    intro t ht i hi
    rcases Table.mem_put.mp ht with rfl | ⟨ht, -⟩
    · exact hs i hi
    · exact ⟨t, ht, rfl, hi⟩
  refine ⟨fun t ht i hi => ?_, fun t ht i hi => ?_, h.spent, fun t ht u hu hne i hi hi' => ?_⟩
  · obtain ⟨t', ht', -, hi'⟩ := hold t ht i hi
    exact h.given t' ht' i hi'
  · obtain ⟨t', ht', -, hi'⟩ := hold t ht i hi
    exact h.unspent t' ht' i hi'
  · obtain ⟨t', ht', htid, hit⟩ := hold t ht i hi
    obtain ⟨u', hu', huid, hiu⟩ := hold u hu i hi'
    exact h.apart t' ht' u' hu' (by rwa [htid, huid]) i hit hiu

theorem erase (h : Allotted tr w) {sh : Shared σ} (i : ℕ) :
    Allotted tr ⟨sh, w.sessions.erase i⟩ := by
  have hsub : ∀ {t}, t ∈ (w.sessions.erase i).rows → t ∈ w.sessions.rows :=
    fun ht => (Table.mem_erase.mp ht).1
  exact ⟨fun t ht => h.given t (hsub ht), fun t ht => h.unspent t (hsub ht), h.spent,
    fun t ht u hu => h.apart t (hsub ht) u (hsub hu)⟩

/-- Nothing is given out and nobody commits. -/
theorem cons (h : Allotted tr w) {x : Transition σ} (hg : x.action.given? = none)
    (hs : x.spends = []) : Allotted (x :: tr) w := by
  have hgiven : givenIdents (x :: tr) = givenIdents tr := by rw [givenIdents_cons, hg]; rfl
  have hspent : spentIdents (x :: tr) = spentIdents tr := by rw [spentIdents_cons, hs]; rfl
  exact ⟨hgiven ▸ h.given, hspent ▸ h.unspent, hgiven ▸ hspent ▸ h.spent, h.apart⟩

/-- A session takes its identifiers with it when it commits. -/
theorem commit (h : Allotted tr w) {x : Transition σ} {s : Session σ} {sh : Shared σ}
    (hs : s ∈ w.sessions.rows) (hg : x.action.given? = none) (hx : x.spends = s.txn.idents) :
    Allotted (x :: tr) ⟨sh, w.sessions.erase s.id⟩ := by
  have hgiven : givenIdents (x :: tr) = givenIdents tr := by rw [givenIdents_cons, hg]; rfl
  have hspent : spentIdents (x :: tr) = s.txn.idents ++ spentIdents tr := by
    rw [spentIdents_cons, hx]
  have hrest : Allotted tr ⟨sh, w.sessions.erase s.id⟩ := h.erase s.id
  refine ⟨hgiven ▸ hrest.given, fun t ht i hi hspends => ?_, fun i hi => ?_, hrest.apart⟩
  · rw [hspent] at hspends
    obtain ⟨ht', hne⟩ := Table.mem_erase.mp ht
    rcases List.mem_append.mp hspends with his | hold
    · exact h.apart t ht' s hs hne i hi his
    · exact h.unspent t ht' i hi hold
  · rw [hspent] at hi
    rw [hgiven]
    rcases List.mem_append.mp hi with his | hold
    · exact h.given s hs i his
    · exact h.spent i hold

/-- A new identifier is given to a session. -/
theorem give (h : Allotted tr w) {x : Transition σ} {s s' : Session σ} {sh : Shared σ}
    {ident : σ.Ident} (hs : s ∈ w.sessions.rows) (hid : s'.id = s.id)
    (hidents : s'.txn.idents = s.txn.idents ++ [ident]) (hg : x.action.given? = some ident)
    (hx : x.spends = []) (hnew : ident ∉ givenIdents tr) :
    Allotted (x :: tr) ⟨sh, w.sessions.put s'⟩ := by
  have hgiven : givenIdents (x :: tr) = ident :: givenIdents tr := by rw [givenIdents_cons, hg]; rfl
  have hspent : spentIdents (x :: tr) = spentIdents tr := by rw [spentIdents_cons, hx]; rfl
  have hfresh : ∀ t ∈ w.sessions.rows, ident ∉ t.txn.idents :=
    fun t ht hi => hnew (h.given t ht _ hi)
  refine ⟨fun t ht i hi => ?_, fun t ht i hi hspends => ?_, fun i hi => ?_,
    fun t ht u hu hne i hi hi' => ?_⟩
  · rw [hgiven]
    rcases Table.mem_put.mp ht with rfl | ⟨ht, -⟩
    · rw [hidents] at hi
      rcases List.mem_append.mp hi with hi | hi
      · exact List.mem_cons_of_mem _ (h.given s hs i hi)
      · exact List.mem_cons.mpr (.inl (List.mem_singleton.mp hi))
    · exact List.mem_cons_of_mem _ (h.given t ht i hi)
  · rw [hspent] at hspends
    rcases Table.mem_put.mp ht with rfl | ⟨ht, -⟩
    · rw [hidents] at hi
      rcases List.mem_append.mp hi with hi | hi
      · exact h.unspent s hs i hi hspends
      · rw [List.mem_singleton.mp hi] at hspends
        exact hnew (h.spent _ hspends)
    · exact h.unspent t ht i hi hspends
  · rw [hspent] at hi
    exact hgiven ▸ List.mem_cons_of_mem _ (h.spent i hi)
  · have hshared {t : Session σ} (ht : t ∈ w.sessions.rows) (hne : t.id ≠ s'.id)
        (hi : i ∈ s'.txn.idents) (hi' : i ∈ t.txn.idents) : False := by
      rw [hidents] at hi
      rcases List.mem_append.mp hi with hi | hi
      · exact h.apart s hs t ht (fun he => hne (by rw [hid, he])) i hi hi'
      · rw [List.mem_singleton.mp hi] at hi'
        exact hfresh t ht hi'
    rcases Table.mem_put.mp ht with rfl | ⟨ht', hts⟩ <;>
      rcases Table.mem_put.mp hu with rfl | ⟨hu', hus⟩
    · exact hne rfl
    · exact hshared hu' hus hi hi'
    · exact hshared ht' hts hi' hi
    · exact h.apart t ht' u hu' hne i hi hi'

end Allotted

variable [Store σ.Db σ.Write σ.Row] [DecidableEq σ.Row]

/-- The step lemma. -/
theorem Allotted.step {S : System σ} {tr : List (Transition σ)} {w w' : World σ} {a : Action σ}
    (h : Allotted tr w) (ha : w.step S a = some w') (hnew : ∀ i ∈ a.given?, i ∉ givenIdents tr) :
    Allotted (⟨w, a, w'⟩ :: tr) w' := by
  have hidle (hne : ∀ i, a ≠ .run i) : Transition.spends ⟨w, a, w'⟩ = [] :=
    Transition.spends_eq_nil fun s v hc => hne s.id hc.2.1
  cases World.stepTo ha with
  | start => exact (h.put (by simp)).cons rfl (hidle (by simp))
  | @give s k i hs hp =>
    exact h.give (Table.mem_of_find? hs) rfl rfl rfl (hidle (by simp)) (hnew i rfl)
  | @answer s q k b hs hp =>
    have hkept : Allotted tr ⟨w.shared, w.sessions.put
        { s with prog := k b, txn := s.txn.answered q b }⟩ :=
      h.put fun i hi => ⟨s, Table.mem_of_find? hs, rfl, hi⟩
    exact hkept.cons rfl (hidle (by simp))
  | @rollback s hs => exact (h.erase s.id).cons rfl (hidle (by simp))
  | @event e y hy =>
    have hsame : Allotted tr ⟨⟨w.shared.db, y⟩, w.sessions⟩ :=
      ⟨h.given, h.unspent, h.spent, h.apart⟩
    exact hsame.cons rfl (hidle (by simp))
  | @run s sh r hs hr =>
    have hmem := Table.mem_of_find? hs
    by_cases hdone : ∃ v, s.prog = .done v
    · obtain ⟨v, hp⟩ := hdone
      have hc : Transition.Commits ⟨w, .run s.id, w.settle s.id sh r⟩ s v := ⟨hs, rfl, hp⟩
      obtain rfl : r = none := by
        cases Session.advances hr <;> simp_all
      exact h.commit hmem rfl hc.spends
    · have hspends : Transition.spends ⟨w, .run s.id, w.settle s.id sh r⟩ = [] :=
        Transition.spends_eq_nil fun t v hc => hdone ⟨v, hc.eq_of_run hs rfl ▸ hc.2.2⟩
      refine Allotted.cons ?_ rfl hspends
      cases r with
      | none => exact h.erase s.id
      | some s' =>
        have hkeep : s'.id = s.id ∧ s'.txn.idents = s.txn.idents := by
          cases Session.advances hr <;> exact ⟨rfl, rfl⟩
        exact h.put fun i hi => ⟨s, hmem, hkeep.1.symm, hkeep.2 ▸ hi⟩

/-- The run lemma. -/
theorem Run.allotted {S : System σ} {start : Shared σ} {tr : List (Transition σ)} {w : World σ}
    (h : Run S start tr w) (hnew : (givenIdents tr).Nodup) : Allotted tr w := by
  induction h with
  | nil => exact ⟨by simp [World.idle, Table.empty], by simp [World.idle, Table.empty],
      by simp [spentIdents], by simp [World.idle, Table.empty]⟩
  | @snoc tr w w' a _ hstep ih =>
    rw [givenIdents_cons, List.nodup_append] at hnew
    obtain ⟨-, hold, hne⟩ := hnew
    exact (ih hold).step hstep fun i hi hi' =>
      hne i (by simpa using hi) i hi' rfl

end ReadCommitted
