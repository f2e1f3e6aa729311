import MoneyWay.Library.ReadCommitted.Soundness

/-!
# Unique indexes

A unique index finds a row by the key of its image. An insertion looks for the key among the
rows that its session sees, which are not all there may soon be, and locks the key. While it is
locked nobody else can insert it, so what has been seen holds until the commit, and no two rows
ever get the same key.

## Main definitions

- `UniqueIndex.Unique` — no two rows have one key
- `UniqueIndex.Indexed` — writes that keep it so, one after the other, under some locks
- `Prog.Indexes` — code whose statements make such writes

## Main results

- `UniqueIndex.Indexed.after` — what others commit under their locks does not matter
- `Run.unique_keys` — the rule for histories
-/

set_option autoImplicit false

namespace ReadCommitted

open Keyed

/-- The key of a row image, and what an insertion of the key locks. -/
structure UniqueIndex (σ : Signature) (κ : Type) where
  key : σ.Write → Option κ
  lock : κ → σ.Row

/-- Two transactions can hold these locks at the same time. -/
def Apart {R : Type} (held held' : List (R × LockMode)) : Prop :=
  ∀ l ∈ held, ∀ m ∈ held', l.1 = m.1 → l.2.conflicts m.2 = false

theorem Apart.symm {R : Type} {held held' : List (R × LockMode)} (h : Apart held held') :
    Apart held' held := by
  intro l hl m hm he
  rw [LockMode.conflicts_comm]
  exact h m hm l hl he.symm

section Rows

variable {D W R : Type} [Store D W R]

/-- A write does the same to equal rows. -/
theorem row_apply_congr {d d' : D} (h : ∀ r : R, Store.row r d = Store.row r d') (v : W) (r : R) :
    Store.row r (Store.apply v d) = Store.row r (Store.apply v d') := by
  by_cases hr : Store.target (D := D) v = some r
  · rw [Store.row_apply_self v r d hr, Store.row_apply_self v r d' hr]
  · rw [Store.row_apply v r d hr, Store.row_apply v r d' hr, h r]

/-- Writes of different rows can change places. -/
theorem row_apply_comm {v w : W}
    (h : ∀ r : R, Store.target (D := D) v = some r → Store.target (D := D) w ≠ some r) (r : R)
    (d : D) : Store.row r (Store.apply v (Store.apply w d)) =
      Store.row r (Store.apply w (Store.apply v d)) := by
  by_cases hv : Store.target (D := D) v = some r
  · have hw := h r hv
    rw [Store.row_apply_self v r _ hv, Store.row_apply w r _ hw, Store.row_apply_self v r d hv]
  · rw [Store.row_apply v r _ hv]
    by_cases hw : Store.target (D := D) w = some r
    · rw [Store.row_apply_self w r d hw, Store.row_apply_self w r _ hw]
    · rw [Store.row_apply w r d hw, Store.row_apply w r _ hw, Store.row_apply v r d hv]

end Rows

namespace UniqueIndex

variable {σ : Signature} [Store σ.Db σ.Write σ.Row] {κ : Type} (U : UniqueIndex σ κ)

/-- The row has the key. -/
def Holds (k : κ) (r : σ.Row) (d : σ.Db) : Prop := ∃ v, Store.row r d = some v ∧ U.key v = some k

/-- No two rows have the same key. -/
def Unique (d : σ.Db) : Prop := ∀ k r r', U.Holds k r d → U.Holds k r' d → r = r'

/-- The write leaves its row the key it has, or is the first one with this key and has it
locked. -/
def Admits (held : List (σ.Row × LockMode)) (d : σ.Db) (v : σ.Write) : Prop :=
  ∀ k, U.key v = some k →
    (∃ r, Store.target (D := σ.Db) v = some r ∧ U.Holds k r d) ∨
      (∀ r, ¬ U.Holds k r d) ∧ (U.lock k, .noKeyUpdate) ∈ held

/-- Each of the writes is admitted where the ones before it lead. -/
def Indexed (held : List (σ.Row × LockMode)) : List σ.Write → σ.Db → Prop
  | [], _ => True
  | v :: ws, d => U.Admits held d v ∧ Indexed held ws (Store.apply v d)

variable {U} {d d' : σ.Db} {held held' : List (σ.Row × LockMode)} {v w : σ.Write}
  {ws vs : List σ.Write}

/-- A key after a write is that of the write, or was there. -/
theorem Holds.of_apply {k : κ} {r : σ.Row} (h : U.Holds k r (Store.apply v d)) :
    Store.target (D := σ.Db) v = some r ∧ U.key v = some k ∨
      Store.target (D := σ.Db) v ≠ some r ∧ U.Holds k r d := by
  obtain ⟨u, hu, hk⟩ := h
  by_cases hr : Store.target (D := σ.Db) v = some r
  · rw [Store.row_apply_self v r d hr] at hu
    split at hu
    · cases hu
    · cases hu
      exact .inl ⟨hr, hk⟩
  · rw [Store.row_apply v r d hr] at hu
    exact .inr ⟨hr, u, hu, hk⟩

theorem Holds.congr {k : κ} {r : σ.Row} (h : U.Holds k r d)
    (hrow : Store.row r d = Store.row r d') : U.Holds k r d' := by
  obtain ⟨u, hu, hk⟩ := h
  exact ⟨u, hrow ▸ hu, hk⟩

/-- An admitted write keeps the keys unique. -/
theorem Unique.apply (h : U.Unique d) (ha : U.Admits held d v) : U.Unique (Store.apply v d) := by
  -- a row whose key is not that of the write does not meet it
  have hone : ∀ k r r', Store.target (D := σ.Db) v = some r → U.key v = some k →
      U.Holds k r' d → r = r' := by
    intro k r r' hr hk hold
    cases ha k hk with
    | inl hkept =>
      obtain ⟨r₀, hr₀, hholds⟩ := hkept
      obtain rfl : r = r₀ := Option.some.inj (hr.symm.trans hr₀)
      exact h k r r' hholds hold
    | inr hadded => exact absurd hold (hadded.1 r')
  intro k r r' hr hr'
  obtain ⟨ht, hk⟩ | ⟨-, hold⟩ := hr.of_apply
  · obtain ⟨ht', -⟩ | ⟨-, hold'⟩ := hr'.of_apply
    · exact Option.some.inj (ht.symm.trans ht')
    · exact hone k r r' ht hk hold'
  · obtain ⟨ht', hk'⟩ | ⟨-, hold'⟩ := hr'.of_apply
    · exact (hone k r' r ht' hk' hold).symm
    · exact h k r r' hold hold'

theorem Unique.replay (h : U.Unique d) (hi : U.Indexed held ws d) :
    U.Unique (ReadCommitted.replay ws d) := by
  induction ws generalizing d with
  | nil => exact h
  | cons v ws ih => exact ih (h.apply hi.1) hi.2

theorem Admits.mono (h : U.Admits held d v) (hsub : ∀ l ∈ held, l ∈ held') :
    U.Admits held' d v :=
  fun k hk => (h k hk).imp_right fun hadded => ⟨hadded.1, hsub _ hadded.2⟩

theorem Admits.congr (h : U.Admits held d v) (hrow : ∀ r, Store.row r d = Store.row r d') :
    U.Admits held d' v := by
  intro k hk
  cases h k hk with
  | inl hkept =>
    obtain ⟨r, hr, hholds⟩ := hkept
    exact .inl ⟨r, hr, hholds.congr (hrow r)⟩
  | inr hadded => exact .inr ⟨fun r hr => hadded.1 r (hr.congr (hrow r).symm), hadded.2⟩

/-- A write stays admitted when another one is made under locks that go with its own. -/
theorem Admits.after (h : U.Admits held d v) (hw : U.Admits held' d w)
    (hrow : ∀ r, Store.target (D := σ.Db) v = some r → Store.target (D := σ.Db) w ≠ some r)
    (hlocks : Apart held held') : U.Admits held (Store.apply w d) v := by
  intro k hk
  cases h k hk with
  | inl hkept =>
    obtain ⟨r, hr, hholds⟩ := hkept
    exact .inl ⟨r, hr, hholds.congr (Store.row_apply w r d (hrow r hr)).symm⟩
  | inr hadded =>
    obtain ⟨habsent, hlock⟩ := hadded
    refine .inr ⟨fun r hr => ?_, hlock⟩
    obtain ⟨-, hkey⟩ | ⟨-, hold⟩ := hr.of_apply
    · cases hw k hkey with
      | inl hkept =>
        obtain ⟨r', -, hholds⟩ := hkept
        exact habsent r' hholds
      | inr hadded' =>
        -- both have the key locked
        have hfree := hlocks _ hlock _ hadded'.2 rfl
        cases hfree
    · exact habsent r hold

namespace Indexed

/-- Images without a key do nothing to the index. -/
theorem of_free (h : ∀ v ∈ ws, U.key v = none) : U.Indexed held ws d := by
  induction ws generalizing d with
  | nil => trivial
  | cons v ws ih =>
    refine ⟨fun k hk => ?_, ih fun u hu => h u (List.mem_cons_of_mem _ hu)⟩
    rw [h v List.mem_cons_self] at hk
    cases hk

theorem mono (h : U.Indexed held ws d) (hsub : ∀ l ∈ held, l ∈ held') :
    U.Indexed held' ws d := by
  induction ws generalizing d with
  | nil => trivial
  | cons v ws ih => exact ⟨h.1.mono hsub, ih h.2⟩

theorem congr (h : U.Indexed held ws d) (hrow : ∀ r, Store.row r d = Store.row r d') :
    U.Indexed held ws d' := by
  induction ws generalizing d d' with
  | nil => trivial
  | cons v ws ih => exact ⟨h.1.congr hrow, ih h.2 (row_apply_congr hrow v)⟩

theorem append (h : U.Indexed held ws d) (h' : U.Indexed held vs (ReadCommitted.replay ws d)) :
    U.Indexed held (ws ++ vs) d := by
  induction ws generalizing d with
  | nil => exact h'
  | cons v ws ih => exact ⟨h.1, ih h.2 h'⟩

/-- One write of another session. -/
theorem after_one (h : U.Indexed held ws d) (hw : U.Admits held' d w)
    (hrow : ∀ v ∈ ws, ∀ r, Store.target (D := σ.Db) v = some r →
      Store.target (D := σ.Db) w ≠ some r)
    (hlocks : Apart held held') : U.Indexed held ws (Store.apply w d) := by
  induction ws generalizing d with
  | nil => trivial
  | cons v ws ih =>
    have hv := hrow v List.mem_cons_self
    have hrest : ∀ u ∈ ws, ∀ r, Store.target (D := σ.Db) u = some r →
        Store.target (D := σ.Db) w ≠ some r := fun u hu => hrow u (List.mem_cons_of_mem _ hu)
    have hw' : U.Admits held' (Store.apply v d) w :=
      hw.after h.1 (fun r hr hr' => hv r hr' hr) hlocks.symm
    refine ⟨h.1.after hw hv hlocks, (ih h.2 hw' hrest).congr fun r => ?_⟩
    exact (row_apply_comm hv r d).symm

/-- All that another session commits. -/
theorem after (h : U.Indexed held ws d) (hvs : U.Indexed held' vs d)
    (hrow : ∀ v ∈ ws, ∀ w ∈ vs, ∀ r, Store.target (D := σ.Db) v = some r →
      Store.target (D := σ.Db) w ≠ some r)
    (hlocks : Apart held held') : U.Indexed held ws (ReadCommitted.replay vs d) := by
  induction vs generalizing d with
  | nil => exact h
  | cons w vs ih =>
    have hone := h.after_one hvs.1 (fun v hv => hrow v hv w List.mem_cons_self) hlocks
    exact ih hone hvs.2 fun v hv u hu => hrow v hv u (List.mem_cons_of_mem _ hu)

end Indexed

end UniqueIndex

section

variable {σ : Signature} [Store σ.Db σ.Write σ.Row] {κ : Type} {U : UniqueIndex σ κ} {α β : Type}

/-- The statements of the code keep the index, on whatever they see. -/
def Prog.Indexes (U : UniqueIndex σ κ) : Prog σ α → Prop
  | .done _ => True
  | .throw _ => True
  | .stmt q k => (∀ blocked d eff, q blocked d = .ok eff →
      U.Indexed (Effect.wanted eff) eff.writes d) ∧ ∀ v, (k v).Indexes U
  | .call _ k => ∀ a, (k a).Indexes U
  | .await _ k => ∀ a, (k a).Indexes U
  | .clock k => ∀ t, (k t).Indexes U
  | .fresh k => ∀ i, (k i).Indexes U

namespace Prog.Indexes

theorem bind {p : Prog σ α} {f : α → Prog σ β} (hp : p.Indexes U) (hf : ∀ a, (f a).Indexes U) :
    (p >>= f).Indexes U := by
  induction p with
  | done a => exact hf a
  | throw e => trivial
  | stmt q k ih => exact ⟨hp.1, fun v => ih v (hp.2 v)⟩
  | call q k ih => exact fun a => ih a (hp a)
  | await q k ih => exact fun a => ih a (hp a)
  | clock k ih => exact fun t => ih t (hp t)
  | fresh k ih => exact fun i => ih i (hp i)

theorem exec {q : Stmt σ.Db σ.Write σ.Row σ.Error β}
    (h : ∀ blocked d eff, q blocked d = .ok eff → U.Indexed (Effect.wanted eff) eff.writes d) :
    (Prog.exec q : Prog σ β).Indexes U := ⟨h, fun _ => trivial⟩

theorem now {f : ℤ → Prog σ α} (h : ∀ t, (f t).Indexes U) : (Prog.now >>= f).Indexes U := h

theorem uuid {f : σ.Ident → Prog σ α} (h : ∀ i, (f i).Indexes U) : (Prog.uuid >>= f).Indexes U := h

theorem request {q : σ.Request} {f : σ.Answer → Prog σ α} (h : ∀ a, (f a).Indexes U) :
    (Prog.request q >>= f).Indexes U := h

/-- Statements that write no image with a key. -/
theorem exec_free {q : Stmt σ.Db σ.Write σ.Row σ.Error β}
    (h : ∀ blocked d eff, q blocked d = .ok eff → ∀ v ∈ eff.writes, U.key v = none) :
    (Prog.exec q : Prog σ β).Indexes U :=
  exec fun blocked d eff hq => .of_free (h blocked d eff hq)

theorem forEach {γ : Type} {f : γ → Prog σ Unit} (h : ∀ c, (f c).Indexes U) (cs : List γ) :
    (Prog.forEach cs f).Indexes U := by
  induction cs with
  | nil => trivial
  | cons c cs ih => exact (h c).bind fun _ => ih

end Prog.Indexes

end

/-! ## Histories -/

section

variable {σ : Signature} [Store σ.Db σ.Write σ.Row] {S : System σ}

/-- The contract that asks for nothing. -/
def Contract.any (σ : Signature) : Contract σ where
  inv := fun _ => True
  guar := fun _ _ => True
  ask := fun _ _ _ _ => True
  sends := fun _ _ _ => True
  post := fun _ _ _ _ => True
  single := fun _ _ => True

theorem Contract.wp_any {α : Type} (j : σ.Job) (p : Prog σ α) {Q : α → Txn σ → Shared σ → Prop}
    (hQ : ∀ v x s, Q v x s) (x : Txn σ) (s : Shared σ) : (any σ).Wp S j p Q x s := by
  induction p generalizing x s with
  | done v => exact hQ v x s
  | throw e => trivial
  | stmt q k ih => exact fun s' _ blocked eff _ => ⟨trivial, ih _ _ _⟩
  | call q k ih => exact fun s' _ => ⟨trivial, ⟨trivial, trivial, trivial⟩, fun a => ih a _ _⟩
  | await q k ih => exact fun a => ih a _ _
  | clock k ih => exact fun s' _ => ih _ _ _
  | fresh k ih => exact fun i => ih i _ _

theorem Contract.any_valid (ha : ∀ j, S.autocommit j = false) :
    (any σ).Valid S fun _ => True := by
  refine ⟨fun j _ s _ => ?_, fun _ _ _ _ _ _ _ _ _ => ⟨trivial, trivial⟩,
    fun _ _ _ _ _ => ⟨trivial, trivial⟩⟩
  simp only [Meets, ha, Bool.false_eq_true, if_false]
  exact wp_any j _ (fun _ _ _ _ _ => trivial) _ _

variable {κ : Type} {U : UniqueIndex σ κ} {w w' : World σ}

/-- The keys are unique, and all that is still to be committed keeps them so. -/
structure Indexing (U : UniqueIndex σ κ) (w : World σ) : Prop where
  unique : U.Unique w.shared.db
  code : ∀ s ∈ w.sessions.rows, s.prog.Indexes U
  pending : ∀ s ∈ w.sessions.rows, U.Indexed s.txn.held s.txn.pending w.shared.db

/-- A session goes on, or is new, while the database stays as it is. -/
theorem Indexing.put (h : Indexing U w) {s : Session σ} {sh : Shared σ}
    (hdb : sh.db = w.shared.db) (hcode : s.prog.Indexes U)
    (hpending : U.Indexed s.txn.held s.txn.pending w.shared.db) :
    Indexing U ⟨sh, w.sessions.put s⟩ := by
  refine ⟨hdb ▸ h.unique, fun t ht => ?_, fun t ht => ?_⟩
  · obtain rfl | ⟨ht, -⟩ := Table.mem_put.mp ht
    · exact hcode
    · exact h.code t ht
  · show U.Indexed _ _ sh.db
    rw [hdb]
    obtain rfl | ⟨ht, -⟩ := Table.mem_put.mp ht
    · exact hpending
    · exact h.pending t ht

theorem Indexing.erase (h : Indexing U w) {sh : Shared σ} (hdb : sh.db = w.shared.db) (i : ℕ) :
    Indexing U ⟨sh, w.sessions.erase i⟩ := by
  refine ⟨hdb ▸ h.unique, fun t ht => h.code t (Table.mem_erase.mp ht).1, fun t ht => ?_⟩
  show U.Indexed _ _ sh.db
  rw [hdb]
  exact h.pending t (Table.mem_erase.mp ht).1

/-- A commit: the others have written other rows, and hold locks that go with its own. -/
theorem Indexing.commit (h : Indexing U w) (hsafe : (Contract.any σ).Safe S (fun _ => True) w)
    {s : Session σ} (hs : s ∈ w.sessions.rows) :
    Indexing U ⟨⟨replay s.txn.pending w.shared.db, w.shared.ext⟩, w.sessions.erase s.id⟩ := by
  have hpending := h.pending s hs
  refine ⟨h.unique.replay hpending, fun t ht => h.code t (Table.mem_erase.mp ht).1,
    fun t ht => ?_⟩
  obtain ⟨ht, hne⟩ := Table.mem_erase.mp ht
  have hapart : Apart t.txn.held s.txn.held := fun l hl m hm =>
    hsafe.exclusive t ht s hs hne l hl m hm
  refine (h.pending t ht).after hpending (fun v hv u hu r hr hr' => ?_) hapart
  have hfree := hapart _ (hsafe.covered t ht v hv r hr) _ (hsafe.covered s hs u hu r hr') rfl
  cases hfree

variable [DecidableEq σ.Row] {start : Shared σ} {tr : List (Transition σ)} {a : Action σ}

/-- The step lemma. -/
theorem Indexing.step (ha : ∀ j, S.autocommit j = false) (hprog : ∀ j, (S.program j).Indexes U)
    (h : Indexing U w) (hsafe : (Contract.any σ).Safe S (fun _ => True) w)
    (hstep : w.step S a = some w') : Indexing U w' := by
  cases World.stepTo hstep with
  | start _ => exact h.put rfl (hprog _) trivial
  | @run s sh r hs hadv =>
    have hmem := Table.mem_of_find? hs
    have hcode := h.code s hmem
    have hpending := h.pending s hmem
    cases Session.advances hadv with
    | commit hp => exact h.commit hsafe hmem
    | abort hp => exact h.erase rfl s.id
    | fail hp hq => exact h.put rfl trivial hpending
    | together hp hq hb hauto =>
      rw [hp] at hcode
      apply h.put rfl (hcode.2 _)
      have hnew := hcode.1 _ _ _ hq
      apply UniqueIndex.Indexed.append
      · exact hpending.mono fun l hl => List.mem_append_left _ hl
      · exact hnew.mono fun l hl => List.mem_append_right _ hl
    | single hp hq hb hauto =>
      rw [ha] at hauto
      cases hauto
    | clock hp =>
      rw [hp] at hcode
      exact h.put rfl (hcode _) hpending
    | send hp =>
      rw [hp] at hcode
      exact h.put rfl hcode hpending
  | @give s k i hs hp =>
    have hmem := Table.mem_of_find? hs
    have hcode := h.code s hmem
    rw [hp] at hcode
    exact h.put rfl (hcode i) (h.pending s hmem)
  | @answer s q k b hs hp =>
    have hmem := Table.mem_of_find? hs
    have hcode := h.code s hmem
    rw [hp] at hcode
    exact h.put rfl (hcode b) (h.pending s hmem)
  | rollback hs => exact h.erase rfl _
  | event he => exact ⟨h.unique, h.code, h.pending⟩

/-- The rule for histories: keys that were unique stay so. -/
theorem Run.unique_keys (ha : ∀ j, S.autocommit j = false) (hprog : ∀ j, (S.program j).Indexes U)
    (hs : U.Unique start.db) (hr : Run S start tr w) : U.Unique w.shared.db := by
  suffices h : Indexing U w from h.unique
  induction hr with
  | nil => exact ⟨hs, by simp [World.idle, Table.empty], by simp [World.idle, Table.empty]⟩
  | snoc hr hstep ih =>
    have hsafe := (Contract.any_valid ha).run trivial hr fun _ _ _ _ _ => trivial
    exact ih.step ha hprog hsafe hstep

end

end ReadCommitted
