import Mathlib.Logic.Relation
import MoneyWay.Library.ReadCommitted.System

/-!
# Rely and guarantee for sessions

A contract says what every committed state satisfies (`inv`), what a change of the
shared state may do (`guar`), what a statement may ask the lock manager for (`ask`),
what is known when a request is sent (`sends`) and when a transaction commits
(`post`), and what a statement that commits by itself may do (`single`). A session that
runs code meets the contract when each of its operations does, whatever the other sessions
commit in between; the rows it has locked stay as they are.

`Contract.safe` is the rule: if every job's code meets the contract when run by
itself from any state with the invariant, then every history of any number of
sessions keeps the invariant, and each commit happens in a state with its `post`.
-/

set_option autoImplicit false

namespace ReadCommitted

open Keyed Relation

structure Contract (σ : Signature) where
  inv : Shared σ → Prop
  guar : Shared σ → Shared σ → Prop
  ask : σ.Job → Txn σ → List (σ.Row × LockMode) → Shared σ → Prop
  sends : σ.Job → σ.Request → Shared σ → Prop
  post : σ.Job → σ.Result → Txn σ → Shared σ → Prop
  single : Shared σ → Shared σ → Prop

namespace Contract

variable {σ : Signature} (P : Contract σ)

/-- One change of the shared state that the contract allows. -/
structure Link (s s' : Shared σ) : Prop where
  inv : P.inv s
  guar : P.guar s s'
  inv' : P.inv s'

/-- Any number of allowed changes. -/
def Leads : Shared σ → Shared σ → Prop := ReflTransGen P.Link

variable {P}

theorem Leads.refl (s : Shared σ) : P.Leads s s := ReflTransGen.refl

theorem Leads.trans {s t u : Shared σ} (h : P.Leads s t) (h' : P.Leads t u) : P.Leads s u :=
  ReflTransGen.trans h h'

theorem Link.leads {s t : Shared σ} (h : P.Link s t) : P.Leads s t := ReflTransGen.single h

/-- A property that no allowed change takes away. -/
theorem Leads.stable {p : Shared σ → Prop}
    (hp : ∀ s s', P.inv s → P.guar s s' → P.inv s' → p s → p s')
    {s s' : Shared σ} (h : P.Leads s s') (hs : p s) : p s' := by
  induction h with
  | refl => exact hs
  | tail _ hl ih => exact hp _ _ hl.inv hl.guar hl.inv' ih

/-- A preorder that every allowed change is in. -/
theorem Leads.lift {r : Shared σ → Shared σ → Prop} (hr : ∀ s, r s s)
    (ht : ∀ s t u, r s t → r t u → r s u) (hg : ∀ s s', P.guar s s' → r s s')
    {s s' : Shared σ} (h : P.Leads s s') : r s s' := by
  induction h with
  | refl => exact hr _
  | tail _ hl ih => exact ht _ _ _ ih (hg _ _ hl.guar)

theorem Leads.weaken (P' : Contract σ) {s s' : Shared σ} (h : P.Leads s s')
    (hinv : ∀ s, P.inv s → P'.inv s) (hguar : ∀ s s', P.guar s s' → P'.guar s s') :
    P'.Leads s s' := by
  induction h with
  | refl => exact .refl _
  | tail _ hl ih => exact ih.trans (Link.leads ⟨hinv _ hl.inv, hguar _ _ hl.guar, hinv _ hl.inv'⟩)

variable (P) (S : System σ)

section

variable [Store σ.Db σ.Write σ.Row]

/-- What a session that holds locks may find when it runs its next operation. -/
structure Later (held : List (σ.Row × LockMode)) (s s' : Shared σ) : Prop where
  inv : P.inv s'
  leads : P.Leads s s'
  rows : ∀ r m, (r, m) ∈ held → m.protects = true → Store.row r s'.db = Store.row r s.db

variable {P} in
theorem Later.refl {held : List (σ.Row × LockMode)} {s : Shared σ} (h : P.inv s) :
    P.Later held s s := ⟨h, .refl s, fun _ _ _ _ => rfl⟩

variable {P} in
/-- Locks only accumulate, so what the earlier ones protect stays protected. -/
theorem Later.trans {held held' : List (σ.Row × LockMode)} {s t u : Shared σ}
    (h : P.Later held s t) (h' : P.Later held' t u) (hsub : ∀ l ∈ held, l ∈ held') :
    P.Later held s u :=
  ⟨h'.inv, h.leads.trans h'.leads,
    fun r m hm hp => (h'.rows r m (hsub _ hm) hp).trans (h.rows r m hm hp)⟩

/-- Code that meets the contract and ends, if by a value, with `Q` of the value, the
transaction and the shared state. -/
def Wp (j : σ.Job) {α : Type} :
    Prog σ α → (α → Txn σ → Shared σ → Prop) → Txn σ → Shared σ → Prop
  | .done v, Q, x, s => Q v x s
  | .throw _, _, _, _ => True
  | .stmt q k, Q, x, s => ∀ s', P.Later x.held s s' → ∀ blocked eff,
      q blocked (replay x.pending s'.db) = .ok eff →
        P.ask j x (Effect.wanted eff) s' ∧ Wp j (k eff.value) Q (x.executed s' eff) s'
  | .call q k, Q, x, s => ∀ s', P.Later x.held s s' →
      P.sends j q s' ∧ P.Link s' ⟨s'.db, S.send q s'.ext⟩ ∧
        ∀ a, Wp j (k a) Q (x.answered q a) ⟨s'.db, S.send q s'.ext⟩
  | .await q k, Q, x, s => ∀ a, Wp j (k a) Q (x.answered q a) s
  | .clock k, Q, x, s => ∀ s', P.Later x.held s s' → Wp j (k (S.now s'.ext)) Q x s'
  | .fresh k, Q, x, s => ∀ i, Wp j (k i) Q (x.given i) s

/-- What is known at the end still is when the commit runs. -/
def AtCommit (j : σ.Job) (v : σ.Result) (x : Txn σ) (s : Shared σ) : Prop :=
  ∀ s', P.Later x.held s s' → P.post j v x s'

/-- The rest of a session's code meets the contract. -/
def Ok (j : σ.Job) (p : Prog σ σ.Result) : Txn σ → Shared σ → Prop := P.Wp S j p (P.AtCommit j)

/-- The same for a session whose statements commit one by one. -/
def WpAuto (j : σ.Job) {α : Type} : Prog σ α → (α → Shared σ → Prop) → Shared σ → Prop
  | .done v, Q, s => Q v s
  | .throw _, _, _ => True
  | .stmt q k, Q, s => ∀ s', P.Later [] s s' → ∀ blocked eff, q blocked s'.db = .ok eff →
      (P.Link s' ⟨replay eff.writes s'.db, s'.ext⟩ ∧
        P.single s' ⟨replay eff.writes s'.db, s'.ext⟩) ∧
        WpAuto j (k eff.value) Q ⟨replay eff.writes s'.db, s'.ext⟩
  | .call q k, Q, s => ∀ s', P.Later [] s s' →
      P.sends j q s' ∧ P.Link s' ⟨s'.db, S.send q s'.ext⟩ ∧
        ∀ a, WpAuto j (k a) Q ⟨s'.db, S.send q s'.ext⟩
  | .await _ k, Q, s => ∀ a, WpAuto j (k a) Q s
  | .clock k, Q, s => ∀ s', P.Later [] s s' → WpAuto j (k (S.now s'.ext)) Q s'
  | .fresh k, Q, s => ∀ i, WpAuto j (k i) Q s

def OkAuto (j : σ.Job) (p : Prog σ σ.Result) : Shared σ → Prop :=
  P.WpAuto S j p fun _ _ => True

variable {P S}

/-- Code runs in sequence: the second part starts with what the first one ends with. -/
theorem Wp.bind {j : σ.Job} {α β : Type} {p : Prog σ α} {f : α → Prog σ β}
    {Q : β → Txn σ → Shared σ → Prop} {x : Txn σ} {s : Shared σ}
    (h : P.Wp S j p (fun a => P.Wp S j (f a) Q) x s) : P.Wp S j (p >>= f) Q x s := by
  induction p generalizing x s with
  | done v => exact h
  | throw => trivial
  | stmt q k ih => exact fun t ht b e hq => ⟨(h t ht b e hq).1, ih _ (h t ht b e hq).2⟩
  | call q k ih => exact fun t ht => ⟨(h t ht).1, (h t ht).2.1, fun a => ih a ((h t ht).2.2 a)⟩
  | await q k ih => exact fun a => ih a (h a)
  | clock k ih => exact fun t ht => ih _ (h t ht)
  | fresh k ih => exact fun i => ih i (h i)

theorem WpAuto.bind {j : σ.Job} {α β : Type} {p : Prog σ α} {f : α → Prog σ β}
    {Q : β → Shared σ → Prop} {s : Shared σ}
    (h : P.WpAuto S j p (fun a => P.WpAuto S j (f a) Q) s) : P.WpAuto S j (p >>= f) Q s := by
  induction p generalizing s with
  | done v => exact h
  | throw => trivial
  | stmt q k ih => exact fun t ht b e hq => ⟨(h t ht b e hq).1, ih _ (h t ht b e hq).2⟩
  | call q k ih => exact fun t ht => ⟨(h t ht).1, (h t ht).2.1, fun a => ih a ((h t ht).2.2 a)⟩
  | await q k ih => exact fun a => ih a (h a)
  | clock k ih => exact fun t ht => ih _ (h t ht)
  | fresh k ih => exact fun i => ih i (h i)

/-- The rule of consequence. -/
theorem Wp.mono {j : σ.Job} {α : Type} {p : Prog σ α} {Q R : α → Txn σ → Shared σ → Prop}
    (hQ : ∀ v x s, Q v x s → R v x s) {x : Txn σ} {s : Shared σ} (h : P.Wp S j p Q x s) :
    P.Wp S j p R x s := by
  induction p generalizing x s with
  | done v => exact hQ v x s h
  | throw => trivial
  | stmt q k ih => exact fun t ht b e hq => ⟨(h t ht b e hq).1, ih _ (h t ht b e hq).2⟩
  | call q k ih => exact fun t ht => ⟨(h t ht).1, (h t ht).2.1, fun a => ih a ((h t ht).2.2 a)⟩
  | await q k ih => exact fun a => ih a (h a)
  | clock k ih => exact fun t ht => ih _ (h t ht)
  | fresh k ih => exact fun i => ih i (h i)

/-! The rules for single operations. -/

theorem Wp.exec {j : σ.Job} {β : Type} {q : Stmt σ.Db σ.Write σ.Row σ.Error β}
    {Q : β → Txn σ → Shared σ → Prop} {x : Txn σ} {s : Shared σ}
    (h : ∀ s', P.Later x.held s s' → ∀ blocked eff, q blocked (replay x.pending s'.db) = .ok eff →
      P.ask j x (Effect.wanted eff) s' ∧ Q eff.value (x.executed s' eff) s') :
    P.Wp S j (Prog.exec q) Q x s := h

theorem Wp.clock {j : σ.Job} {β : Type} {f : ℤ → Prog σ β} {Q : β → Txn σ → Shared σ → Prop}
    {x : Txn σ} {s : Shared σ}
    (h : ∀ s', P.Later x.held s s' → P.Wp S j (f (S.now s'.ext)) Q x s') :
    P.Wp S j (Prog.now >>= f) Q x s := h

/-- A reading of the clock whose value does not matter. -/
theorem Wp.now {j : σ.Job} {β : Type} {f : ℤ → Prog σ β} {Q : β → Txn σ → Shared σ → Prop}
    {x : Txn σ} {s : Shared σ} (h : ∀ s' t, P.Later x.held s s' → P.Wp S j (f t) Q x s') :
    P.Wp S j (Prog.now >>= f) Q x s := fun s' hl => h s' _ hl

/-- A fresh identifier, whatever it is. -/
theorem Wp.uuid {j : σ.Job} {β : Type} {f : σ.Ident → Prog σ β}
    {Q : β → Txn σ → Shared σ → Prop} {x : Txn σ} {s : Shared σ}
    (h : ∀ i, P.Wp S j (f i) Q (x.given i) s) : P.Wp S j (Prog.uuid >>= f) Q x s := h

/-- The rule for a loop over a list: what holds of the part that is done. -/
theorem Wp.forEach {j : σ.Job} {κ : Type} {f : κ → Prog σ Unit}
    {I : List κ → Txn σ → Shared σ → Prop} {ks : List κ} {x : Txn σ} {s : Shared σ}
    (h : ∀ done, ∀ k ∈ ks, ∀ x s, I done x s → P.Wp S j (f k) (fun _ => I (done ++ [k])) x s)
    (h₀ : I [] x s) : P.Wp S j (Prog.forEach ks f) (fun _ => I ks) x s := by
  have hrest : ∀ (rest done : List κ) x s, (∀ k ∈ rest, k ∈ ks) → I done x s →
      P.Wp S j (Prog.forEach rest f) (fun _ => I (done ++ rest)) x s := by
    intro rest
    induction rest with
    | nil =>
      intro done x s _ h₁
      rw [List.append_nil]
      exact h₁
    | cons k rest ih =>
      intro done x s hsub h₁
      refine Wp.bind ((h done k (hsub k List.mem_cons_self) x s h₁).mono fun _ x' s' h' => ?_)
      have hdone := ih (done ++ [k]) x' s' (fun k' hk' => hsub k' (List.mem_cons_of_mem _ hk')) h'
      rwa [List.append_assoc] at hdone
  exact hrest ks [] x s (fun _ hk => hk) h₀

/-- Meeting the contract survives what other sessions commit. -/
theorem Ok.later {j : σ.Job} {p : Prog σ σ.Result} {x : Txn σ} {s s' : Shared σ}
    (h : P.Ok S j p x s) (hl : P.Later x.held s s') : P.Ok S j p x s' := by
  induction p generalizing x with
  | done v => exact fun t ht => h t (hl.trans ht fun _ hm => hm)
  | throw => trivial
  | stmt q k _ => exact fun t ht => h t (hl.trans ht fun _ hm => hm)
  | call q k _ => exact fun t ht => h t (hl.trans ht fun _ hm => hm)
  | await q k ih => exact fun a => ih a (h a) hl
  | clock k _ => exact fun t ht => h t (hl.trans ht fun _ hm => hm)
  | fresh k ih => exact fun i => ih i (h i) hl

theorem OkAuto.later {j : σ.Job} {p : Prog σ σ.Result} {s s' : Shared σ}
    (h : P.OkAuto S j p s) (hl : P.Later [] s s') : P.OkAuto S j p s' := by
  induction p with
  | done => trivial
  | throw => trivial
  | stmt q k _ => exact fun t ht => h t (hl.trans ht fun _ hm => hm)
  | call q k _ => exact fun t ht => h t (hl.trans ht fun _ hm => hm)
  | await q k ih => exact fun a => ih a (h a)
  | clock k _ => exact fun t ht => h t (hl.trans ht fun _ hm => hm)
  | fresh k ih => exact fun i => ih i (h i)

/-- A contract with a stronger invariant and guarantee and the same facts at locks,
sends and commits is met by the same code: the other sessions disturb it less. -/
theorem Ok.refine (P' : Contract σ) {j : σ.Job} {p : Prog σ σ.Result} {x : Txn σ}
    {s : Shared σ} (h : P.Ok S j p x s) (hinv : ∀ s, P'.inv s → P.inv s)
    (hguar : ∀ s s', P'.guar s s' → P.guar s s') (hask : P'.ask = P.ask)
    (hsends : P'.sends = P.sends) (hpost : P'.post = P.post)
    (hsend : ∀ j q s, P'.inv s → P.sends j q s → P.Link s ⟨s.db, S.send q s.ext⟩ →
      P'.Link s ⟨s.db, S.send q s.ext⟩) : P'.Ok S j p x s := by
  have hlater : ∀ {held s s'}, P'.Later held s s' → P.Later held s s' := fun hl =>
    ⟨hinv _ hl.inv, hl.leads.weaken P hinv hguar, hl.rows⟩
  induction p generalizing x s with
  | done v => exact fun t ht => hpost ▸ h t (hlater ht)
  | throw => trivial
  | stmt q k ih =>
    intro t ht blocked eff hq
    obtain ⟨ha, hk⟩ := h t (hlater ht) blocked eff hq
    exact ⟨hask ▸ ha, ih _ hk⟩
  | call q k ih =>
    intro t ht
    obtain ⟨hs, hl, hk⟩ := h t (hlater ht)
    exact ⟨hsends ▸ hs, hsend j q t ht.inv hs hl, fun a => ih a (hk a)⟩
  | await q k ih => exact fun a => ih a (h a)
  | clock k ih => exact fun t ht => ih _ (h t (hlater ht))
  | fresh k ih => exact fun i => ih i (h i)

variable (P S)

/-- A session meets the contract. -/
def Meets (s : Session σ) (sh : Shared σ) : Prop :=
  if S.autocommit s.job = true then
    P.OkAuto S s.job s.prog sh ∧ s.txn.pending = [] ∧ s.txn.held = []
  else P.Ok S s.job s.prog s.txn sh

/-- The snapshots a session has read are earlier states with the invariant. -/
def Past (x : Txn σ) (sh : Shared σ) : Prop := ∀ p ∈ x.snapshots, P.inv p ∧ P.Leads p sh

/-- What holds of a world in any history that runs only such jobs: the invariant,
every session meets the contract, writes are covered by locks, and no two sessions
hold conflicting ones. -/
structure Safe (jobs : σ.Job → Prop) (w : World σ) : Prop where
  inv : P.inv w.shared
  allowed : ∀ s ∈ w.sessions.rows, jobs s.job
  meets : ∀ s ∈ w.sessions.rows, P.Meets S s w.shared
  past : ∀ s ∈ w.sessions.rows, P.Past s.txn w.shared
  covered : ∀ s ∈ w.sessions.rows, ∀ v ∈ s.txn.pending, ∀ r,
    Store.target (D := σ.Db) v = some r → (r, .noKeyUpdate) ∈ s.txn.held
  exclusive : ∀ s ∈ w.sessions.rows, ∀ t ∈ w.sessions.rows, s.id ≠ t.id →
    ∀ l ∈ s.txn.held, ∀ m ∈ t.txn.held, l.1 = m.1 → l.2.conflicts m.2 = false

/-- What has to be proved of a system: each job's code meets the contract, and what
is known at a commit, or what may happen outside, is an allowed change. -/
structure Valid (jobs : σ.Job → Prop) : Prop where
  program : ∀ j, jobs j → ∀ s, P.inv s → P.Meets S ⟨0, j, S.program j, {}⟩ s
  commit : ∀ j v x s, jobs j → S.autocommit j = false → P.inv s → P.Past x s → P.post j v x s →
    P.guar s ⟨replay x.pending s.db, s.ext⟩ ∧ P.inv ⟨replay x.pending s.db, s.ext⟩
  event : ∀ e s x, P.inv s → S.event e s.ext = some x →
    P.guar s ⟨s.db, x⟩ ∧ P.inv ⟨s.db, x⟩

variable {P S}

/-- A contract that is valid for some jobs is valid for fewer. -/
theorem Valid.mono {jobs jobs' : σ.Job → Prop} (h : P.Valid S jobs) (hj : ∀ j, jobs' j → jobs j) :
    P.Valid S jobs' :=
  ⟨fun j hj' => h.program j (hj j hj'), fun j v x s hj' => h.commit j v x s (hj j hj'), h.event⟩

omit [Store σ.Db σ.Write σ.Row] in
theorem Past.leads {x : Txn σ} {s s' : Shared σ} (h : P.Past x s) (hl : P.Leads s s') :
    P.Past x s' := fun p hp => ⟨(h p hp).1, (h p hp).2.trans hl⟩

theorem Meets.later {s : Session σ} {sh sh' : Shared σ} (h : P.Meets S s sh)
    (hl : P.Later s.txn.held sh sh') : P.Meets S s sh' := by
  unfold Meets at h ⊢
  split at h
  · next ha =>
    obtain ⟨hok, hp, hh⟩ := h
    rw [if_pos ha]
    exact ⟨hok.later (hh ▸ hl), hp, hh⟩
  · next ha =>
    rw [if_neg ha]
    exact h.later hl

/-- A session is undisturbed by writes to rows another session has locked. -/
theorem later_of_writes {held : List (σ.Row × LockMode)} {ws : List σ.Write} {s : Shared σ}
    (hl : P.Link s ⟨replay ws s.db, s.ext⟩)
    (hx : ∀ v ∈ ws, ∀ r, Store.target (D := σ.Db) v = some r →
      ∀ m, (r, m) ∈ held → m.protects = false) :
    P.Later held s ⟨replay ws s.db, s.ext⟩ := by
  refine ⟨hl.inv', hl.leads, fun r m hm hp => ?_⟩
  apply row_replay
  intro v hv ht
  rw [hx v hv r ht m hm] at hp
  exact Bool.false_ne_true hp

theorem later_of_ext {held : List (σ.Row × LockMode)} {s : Shared σ} {x : σ.External}
    (hl : P.Link s ⟨s.db, x⟩) : P.Later held s ⟨s.db, x⟩ :=
  ⟨hl.inv', hl.leads, fun _ _ _ _ => rfl⟩

/-- What a statement needs to go ahead, at the moment it asks for its locks. -/
theorem Meets.ask {s : Session σ} {sh : Shared σ} (h : P.Meets S s sh) (hi : P.inv sh)
    (ha : S.autocommit s.job = false) {β : Type} {q : Stmt σ.Db σ.Write σ.Row σ.Error β}
    {k : β → Prog σ σ.Result} (hp : s.prog = .stmt q k) {blocked : σ.Row → LockMode → Bool}
    {eff : Effect σ.Write σ.Row β} (hq : q blocked (replay s.txn.pending sh.db) = .ok eff) :
    P.ask s.job s.txn (Effect.wanted eff) sh := by
  rw [Meets, if_neg (by simp [ha]), hp] at h
  exact (h sh (.refl hi) blocked eff hq).1

end

theorem protects_eq_false {m n : LockMode} (hc : m.conflicts n = false)
    (hm : m.protects = true) : n.protects = false := by
  cases m <;> cases n <;> simp_all [LockMode.conflicts, LockMode.protects]

section

variable {P S}

variable [Store σ.Db σ.Write σ.Row]

/-- Nothing of a safe world is lost when the shared state moves on and session `i`
is replaced, as long as the other sessions may find the new shared state. -/
theorem Safe.put {jobs : σ.Job → Prop} {w : World σ} (h : P.Safe S jobs w) {sh : Shared σ}
    {s : Session σ} (hinv : P.inv sh) (hj : jobs s.job) (hl : P.Leads w.shared sh)
    (hlater : ∀ t ∈ w.sessions.rows, t.id ≠ s.id → P.Later t.txn.held w.shared sh)
    (hmeets : P.Meets S s sh) (hpast : P.Past s.txn sh)
    (hcov : ∀ v ∈ s.txn.pending, ∀ r, Store.target (D := σ.Db) v = some r →
      (r, .noKeyUpdate) ∈ s.txn.held)
    (hexc : ∀ t ∈ w.sessions.rows, t.id ≠ s.id → ∀ l ∈ s.txn.held, ∀ m ∈ t.txn.held,
      l.1 = m.1 → l.2.conflicts m.2 = false) :
    P.Safe S jobs ⟨sh, w.sessions.put s⟩ := by
  refine ⟨hinv, fun t ht => ?_, fun t ht => ?_, fun t ht => ?_, fun t ht => ?_,
    fun t ht u hu => ?_⟩
  · rcases Table.mem_put.mp ht with rfl | ⟨ht, -⟩
    · exact hj
    · exact h.allowed t ht
  · rcases Table.mem_put.mp ht with rfl | ⟨ht, hne⟩
    · exact hmeets
    · exact (h.meets t ht).later (hlater t ht hne)
  · rcases Table.mem_put.mp ht with rfl | ⟨ht, -⟩
    · exact hpast
    · exact (h.past t ht).leads hl
  · rcases Table.mem_put.mp ht with rfl | ⟨ht, -⟩
    · exact hcov
    · exact h.covered t ht
  · rcases Table.mem_put.mp ht with rfl | ⟨ht', hts⟩ <;>
      rcases Table.mem_put.mp hu with rfl | ⟨hu', hus⟩
    · exact fun hne => absurd rfl hne
    · exact fun _ => hexc u hu' hus
    · intro _ l hl m hm he
      rw [LockMode.conflicts_comm]
      exact hexc t ht' hts m hm l hl he.symm
    · exact h.exclusive t ht' u hu'

theorem Safe.erase {jobs : σ.Job → Prop} {w : World σ} (h : P.Safe S jobs w) {sh : Shared σ} {i : ℕ}
    (hinv : P.inv sh) (hl : P.Leads w.shared sh)
    (hlater : ∀ t ∈ w.sessions.rows, t.id ≠ i → P.Later t.txn.held w.shared sh) :
    P.Safe S jobs ⟨sh, w.sessions.erase i⟩ := by
  have hsub : ∀ {t}, t ∈ (w.sessions.erase i).rows → t ∈ w.sessions.rows :=
    fun ht => (Table.mem_erase.mp ht).1
  refine ⟨hinv, fun t ht => h.allowed t (hsub ht), fun t ht => ?_, fun t ht => ?_,
    fun t ht => ?_, fun t ht u hu => ?_⟩
  · exact (h.meets t (hsub ht)).later (hlater t (hsub ht) (Table.mem_erase.mp ht).2)
  · exact (h.past t (hsub ht)).leads hl
  · exact h.covered t (hsub ht)
  · exact h.exclusive t (hsub ht) u (hsub hu)

/-- Other sessions may find the writes of session `i`: it holds the locks. -/
theorem Safe.later_of_session {jobs : σ.Job → Prop} {w : World σ} (h : P.Safe S jobs w)
    {s : Session σ} (hs : s ∈ w.sessions.rows)
    (hl : P.Link w.shared ⟨replay s.txn.pending w.shared.db, w.shared.ext⟩)
    {t : Session σ} (ht : t ∈ w.sessions.rows) (hne : t.id ≠ s.id) :
    P.Later t.txn.held w.shared ⟨replay s.txn.pending w.shared.db, w.shared.ext⟩ := by
  apply later_of_writes hl
  intro v hv r hr m hm
  have hc := h.exclusive s hs t ht hne.symm _ (h.covered s hs v hv r hr) _ hm rfl
  exact protects_eq_false hc rfl

variable [DecidableEq σ.Row]

omit [Store σ.Db σ.Write σ.Row] in
/-- A lock that was granted does not conflict with what other sessions hold. -/
theorem not_blocked {w : World σ} {i : ℕ} {r : σ.Row} {m : LockMode}
    (h : w.blocked i r m = false) {s : Session σ} (hs : s ∈ w.sessions.rows) (hi : s.id ≠ i)
    {n : LockMode} (hn : (r, n) ∈ s.txn.held) : n.conflicts m = false := by
  by_contra hc
  have hb : w.blocked i r m = true := by
    simp only [World.blocked, List.any_eq_true, Bool.and_eq_true, decide_eq_true_eq]
    exact ⟨s, hs, hi, (r, n), hn, rfl, by simpa using hc⟩
  rw [h] at hb
  exact Bool.false_ne_true hb

/-- The same for the writes a statement commits by itself. -/
theorem later_of_statement {w : World σ} {i : ℕ} {β : Type}
    {eff : Effect σ.Write σ.Row β}
    (hb : (Effect.wanted eff).any (fun l => w.blocked i l.1 l.2) = false)
    (hl : P.Link w.shared ⟨replay eff.writes w.shared.db, w.shared.ext⟩)
    {t : Session σ} (ht : t ∈ w.sessions.rows) (hne : t.id ≠ i) :
    P.Later t.txn.held w.shared ⟨replay eff.writes w.shared.db, w.shared.ext⟩ := by
  apply later_of_writes hl
  intro v hv r hr m hm
  have hw : (r, LockMode.noKeyUpdate) ∈ Effect.wanted eff :=
    List.mem_append_right _ (mem_writeLocks.mpr ⟨rfl, v, hv, hr⟩)
  have hc := not_blocked (by simpa using List.any_eq_false.mp hb _ hw) ht hne hm
  rw [LockMode.conflicts_comm] at hc
  exact protects_eq_false hc rfl

end

end Contract

end ReadCommitted
