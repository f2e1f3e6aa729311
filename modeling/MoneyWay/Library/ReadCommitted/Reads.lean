import MoneyWay.Library.ReadCommitted.Step

/-!
# What a session has read

The statements of a session read the shared states of the history in their order, but not one
after the other: anything may have happened in between. So what a session ends with follows from
its code alone, run on any states, and from what is known of the states a history goes through.

## Main definitions

- `Prog.Ends` — what the code ends with, whatever states its statements read, by a value or an
  error
- `states` — the shared states of a history, oldest first

## Main results

- `Run.ends` — the rule for the sessions of a history
- `Run.snapshots_since` — a session has read only states since it was started
- `Run.snapshots_sublist` — a session has read states of the history, in order
- `Run.pairwise_states` — what every transition keeps relates each state to the later ones
-/

set_option autoImplicit false

namespace ReadCommitted

open Keyed

section

variable {σ : Signature} [Store σ.Db σ.Write σ.Row] {α β : Type}

/-- The code ends with `Q` of its value and of the transaction, or with `E` of its error. -/
def Prog.Ends {α : Type} (Q : α → Txn σ → Prop) (E : σ.Error → Txn σ → Prop) :
    Prog σ α → Txn σ → Prop
  | .done v, x => Q v x
  | .throw e, x => E e x
  | .stmt q k, x => ∀ (s : Shared σ) blocked,
      (∀ e, q blocked (replay x.pending s.db) = .error e → E e x) ∧
      ∀ eff, q blocked (replay x.pending s.db) = .ok eff →
        (k eff.value).Ends Q E (x.executed s eff)
  | .call q k, x => ∀ a, (k a).Ends Q E (x.answered q a)
  | .await q k, x => ∀ a, (k a).Ends Q E (x.answered q a)
  | .clock k, x => ∀ t, (k t).Ends Q E x
  | .fresh k, x => ∀ i, (k i).Ends Q E (x.given i)

namespace Prog.Ends

variable {Q : α → Txn σ → Prop} {E : σ.Error → Txn σ → Prop} {x : Txn σ}

theorem bind {R : β → Txn σ → Prop} {p : Prog σ α} {f : α → Prog σ β}
    (h : p.Ends (fun v x => (f v).Ends R E x) E x) : (p >>= f).Ends R E x := by
  induction p generalizing x with
  | done v => exact h
  | throw e => exact h
  | stmt q k ih =>
    exact fun s blocked => ⟨(h s blocked).1, fun eff hq => ih _ ((h s blocked).2 eff hq)⟩
  | call q k ih => exact fun a => ih a (h a)
  | await q k ih => exact fun a => ih a (h a)
  | clock k ih => exact fun t => ih t (h t)
  | fresh k ih => exact fun i => ih i (h i)

theorem exec {q : Stmt σ.Db σ.Write σ.Row σ.Error α}
    (he : ∀ (s : Shared σ) blocked e, q blocked (replay x.pending s.db) = .error e → E e x)
    (h : ∀ (s : Shared σ) blocked eff, q blocked (replay x.pending s.db) = .ok eff →
      Q eff.value (x.executed s eff)) : (Prog.exec q : Prog σ α).Ends Q E x :=
  fun s blocked => ⟨he s blocked, h s blocked⟩

theorem now {f : ℤ → Prog σ α} (h : ∀ t, (f t).Ends Q E x) : (Prog.now >>= f).Ends Q E x := h

theorem uuid {f : σ.Ident → Prog σ α} (h : ∀ i, (f i).Ends Q E (x.given i)) :
    (Prog.uuid >>= f).Ends Q E x := h

/-- The rule of consequence. -/
theorem mono {R : α → Txn σ → Prop} {F : σ.Error → Txn σ → Prop} {p : Prog σ α}
    (h : p.Ends Q E x) (hQ : ∀ v x, Q v x → R v x) (hE : ∀ e x, E e x → F e x) : p.Ends R F x := by
  induction p generalizing x with
  | done v => exact hQ v x h
  | throw e => exact hE e x h
  | stmt q k ih =>
    exact fun s blocked =>
      ⟨fun e he => hE e x ((h s blocked).1 e he), fun eff hq => ih _ ((h s blocked).2 eff hq)⟩
  | call q k ih => exact fun a => ih a (h a)
  | await q k ih => exact fun a => ih a (h a)
  | clock k ih => exact fun t => ih t (h t)
  | fresh k ih => exact fun i => ih i (h i)

/-- Any code ends with something. -/
theorem of_forall (p : Prog σ α) (hQ : ∀ v x, Q v x) (hE : ∀ e x, E e x) (x : Txn σ) :
    p.Ends Q E x := by
  induction p generalizing x with
  | done v => exact hQ v x
  | throw e => exact hE e x
  | stmt q k ih => exact fun s blocked => ⟨fun e _ => hE e x, fun eff _ => ih _ _⟩
  | call q k ih => exact fun a => ih a _
  | await q k ih => exact fun a => ih a _
  | clock k ih => exact fun t => ih t _
  | fresh k ih => exact fun i => ih i _

end Prog.Ends

end

/-- The shared states a history goes through before its transitions, oldest first. -/
def states {σ : Signature} (tr : List (Transition σ)) : List (Shared σ) :=
  (tr.map fun x => x.before.shared).reverse

theorem states_cons {σ : Signature} (x : Transition σ) (tr : List (Transition σ)) :
    states (x :: tr) = states tr ++ [x.before.shared] := by
  simp only [states, List.map_cons, List.reverse_cons]

theorem mem_states {σ : Signature} {tr : List (Transition σ)} {s : Shared σ} :
    s ∈ states tr ↔ ∃ x ∈ tr, x.before.shared = s := by
  simp only [states, List.mem_reverse, List.mem_map]

section

variable {σ : Signature} [Store σ.Db σ.Write σ.Row] [DecidableEq σ.Row] {S : System σ}
  {start : Shared σ} {tr : List (Transition σ)} {w : World σ}

/-- The rule for histories: an open session ends as its code does. -/
theorem Run.ends {Q : σ.Job → σ.Result → Txn σ → Prop} {E : σ.Job → σ.Error → Txn σ → Prop}
    (h : ∀ j, S.autocommit j = false → (S.program j).Ends (Q j) (E j) {})
    (hr : Run S start tr w) :
    ∀ s ∈ w.sessions.rows, S.autocommit s.job = false →
      s.prog.Ends (Q s.job) (E s.job) s.txn := by
  refine Run.sessions
    (I := fun s => S.autocommit s.job = false → s.prog.Ends (Q s.job) (E s.job) s.txn)
    (fun i j => h j) ?_ hr
  intro sh s t hstep hs ha
  rw [hstep.job_eq] at ha ⊢
  have hs := hs ha
  cases hstep with
  | give i hp =>
    rw [hp] at hs
    exact hs i
  | answer a hp =>
    rw [hp] at hs
    exact hs a
  | advance hadv =>
    cases hadv with
    | fail hp hq =>
      rw [hp] at hs
      exact (hs sh _).1 _ hq
    | together hp hq =>
      rw [hp] at hs
      exact (hs sh _).2 _ hq
    | single hp hq hb hauto =>
      have hauto : S.autocommit s.job = true := hauto
      rw [ha] at hauto
      cases hauto
    | clock hp =>
      rw [hp] at hs
      exact hs _
    | send hp =>
      rw [hp] at hs
      exact fun a => hs a

/-- A session that commits has ended as its code does. -/
theorem Run.ends_of_commits {Q : σ.Job → σ.Result → Txn σ → Prop}
    {E : σ.Job → σ.Error → Txn σ → Prop}
    (h : ∀ j, S.autocommit j = false → (S.program j).Ends (Q j) (E j) {})
    (hr : Run S start tr w) {x : Transition σ} (hx : x ∈ tr) {s : Session σ} {v : σ.Result}
    (hc : x.Commits s v) (ha : S.autocommit s.job = false) : Q s.job v s.txn := by
  obtain ⟨early, -, -, hearly, -⟩ := hr.cut_of_mem hx
  obtain ⟨hfind, -, hp⟩ := hc
  have hends := hearly.ends h s (Table.mem_of_find? hfind) ha
  rw [hp] at hends
  exact hends

/-- A session that has failed has done so as its code does. -/
theorem Run.ends_of_throws {Q : σ.Job → σ.Result → Txn σ → Prop}
    {E : σ.Job → σ.Error → Txn σ → Prop}
    (h : ∀ j, S.autocommit j = false → (S.program j).Ends (Q j) (E j) {})
    (hr : Run S start tr w) {s : Session σ} (hs : s ∈ w.sessions.rows) {e : σ.Error}
    (hp : s.prog = .throw e) (ha : S.autocommit s.job = false) : E s.job e s.txn := by
  have hends := hr.ends h s hs ha
  rw [hp] at hends
  exact hends

/-- A session has read states of the history, in their order. -/
theorem Run.snapshots_sublist (hr : Run S start tr w) :
    ∀ s ∈ w.sessions.rows, s.txn.snapshots.Sublist (states tr) := by
  induction hr with
  | nil => simp [World.idle, Table.empty]
  | snoc _ h ih =>
    intro t ht
    rw [states_cons]
    cases World.session_cases h ht with
    | inl hsame => exact (ih t hsame.1).trans (List.sublist_append_left _ _)
    | inr hrest =>
      cases hrest with
      | inl hnew =>
        obtain ⟨j, -, he⟩ := hnew
        rw [he]
        exact List.nil_sublist _
      | inr hmoved =>
        obtain ⟨s, hs, hst, -⟩ := hmoved
        cases hst.snapshots with
        | inl he =>
          rw [he]
          exact (ih s hs).trans (List.sublist_append_left _ _)
        | inr he =>
          rw [he]
          exact (ih s hs).append (List.Sublist.refl _)

/-- A session that was started in the last part of a history has read states of that part. -/
theorem Run.snapshots_since {late early : List (Transition σ)}
    (hr : Run S start (late ++ early) w) {s : Session σ} (hs : s ∈ w.sessions.rows)
    (hnew : ∃ y ∈ late, ∃ j, y.action = .start s.id j) :
    ∀ q ∈ s.txn.snapshots, q ∈ states late := by
  induction late generalizing w s with
  | nil =>
    obtain ⟨y, hy, -⟩ := hnew
    cases hy
  | cons x late ih =>
    cases hr with
    | snoc hr hstep =>
    intro q hq
    rw [states_cons]
    cases World.session_cases hstep hs with
    | inl hsame =>
      obtain ⟨y, hy, j, hj⟩ := hnew
      cases List.mem_cons.mp hy with
      | inl he =>
        rw [he] at hj
        exact absurd hj (hsame.2 j)
      | inr hy => exact List.mem_append_left _ (ih hr hsame.1 ⟨y, hy, j, hj⟩ q hq)
    | inr hrest =>
      cases hrest with
      | inl hstarted =>
        obtain ⟨j, -, he⟩ := hstarted
        rw [he] at hq
        cases hq
      | inr hmoved =>
        obtain ⟨t, ht, hst, hno⟩ := hmoved
        obtain ⟨y, hy, j, hj⟩ := hnew
        cases List.mem_cons.mp hy with
        | inl he =>
          rw [he] at hj
          exact absurd hj (hno s.id j)
        | inr hy =>
          have hold := ih hr ht ⟨y, hy, j, hst.id_eq ▸ hj⟩
          cases hst.snapshots with
          | inl he => exact List.mem_append_left _ (hold q (he ▸ hq))
          | inr he =>
            rw [he] at hq
            cases List.mem_append.mp hq with
            | inl hq => exact List.mem_append_left _ (hold q hq)
            | inr hq => exact List.mem_append_right _ hq

/-- What every transition keeps relates each state of a history to the later ones. -/
theorem Run.pairwise_states {R : Shared σ → Shared σ → Prop}
    (htrans : ∀ s t u, R s t → R t u → R s u) (hr : Run S start tr w)
    (hstep : ∀ x ∈ tr, R x.before.shared x.after.shared) :
    (states tr ++ [w.shared]).Pairwise R := by
  suffices h : (states tr).Pairwise R ∧ ∀ s ∈ states tr, R s w.shared by
    rw [List.pairwise_append]
    exact ⟨h.1, List.pairwise_singleton _ _, by simpa using h.2⟩
  induction hr with
  | nil => exact ⟨.nil, by simp [states]⟩
  | snoc _ h ih =>
    obtain ⟨hpair, hlast⟩ := ih fun x hx => hstep x (List.mem_cons_of_mem _ hx)
    have hnew := hstep _ List.mem_cons_self
    rw [states_cons]
    constructor
    · rw [List.pairwise_append]
      exact ⟨hpair, List.pairwise_singleton _ _, by simpa using hlast⟩
    · intro s hs
      rcases List.mem_append.mp hs with hs | hs
      · exact htrans _ _ _ (hlast s hs) hnew
      · rw [List.mem_singleton.mp hs]
        exact hnew

end

end ReadCommitted
