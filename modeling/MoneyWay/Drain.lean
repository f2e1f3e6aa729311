import MoneyWay.Calls
import MoneyWay.Library.ReadCommitted.CanReach

/-!
# Draining the queue

`_drain` calls `_process_in_transaction` until it returns `False`, while nobody else changes the
tables. The claim takes the oldest transfer that is due, and an exception leaves the drain, so
the next one starts again with the same transfer.

## Main definitions

- `Drains`, `DrainCycles` — a drain, and one drain after the other
- `Precedes` — the order in which the claim takes transfers

## Main results

- `drain_processes_iff` — with a transfer that always raises, a drain processes exactly the
  due transfers that come before it
-/

set_option autoImplicit false

namespace MoneyWay

open Keyed ReadCommitted Python Sql

/-! ## Drains -/

section

variable (unicode : Unicode) (staleSeconds retryBackoffSeconds : ℤ)

/-- `_drain`: the last call is the first one that does not return `True`. -/
inductive Drains : Shared signature → List ProcessStep → Shared signature → Prop
  | last {s s' : Shared signature} {r : Option (Except Error Result)} {x : Txn signature} :
      Ends (bank unicode) (processInTransaction staleSeconds retryBackoffSeconds) s r x s' →
      r ≠ some (.ok (.processed true)) → Drains s [⟨s, r, x, s'⟩] s'
  | next {s s₁ s' : Shared signature} {x : Txn signature} {ps : List ProcessStep} :
      Ends (bank unicode) (processInTransaction staleSeconds retryBackoffSeconds) s
        (some (.ok (.processed true))) x s₁ →
      Drains s₁ ps s' → Drains s (⟨s, some (.ok (.processed true)), x, s₁⟩ :: ps) s'

structure DrainCycle where
  start : Shared signature
  steps : List ProcessStep

/-- One drain after the other; between them time passes. -/
inductive DrainCycles : Shared signature → List DrainCycle → Shared signature → Prop
  | nil {s : Shared signature} : DrainCycles s [] s
  | cons {s s₁ s' : Shared signature} {y : Bingx} {ps : List ProcessStep} {cs : List DrainCycle} :
      Passes (bank unicode) s.ext y →
      Drains unicode staleSeconds retryBackoffSeconds ⟨s.db, y⟩ ps s₁ → DrainCycles s₁ cs s' →
      DrainCycles s (⟨⟨s.db, y⟩, ps⟩ :: cs) s'

/-- What the claim would take at this time. -/
def dueAt (now : Timestamp) (d : Database) (x : BingxTransfer) : Bool :=
  claimable now (if staleSeconds > 0 then some (now - seconds staleSeconds) else none)
    (now - seconds retryBackoffSeconds) d x

/-- The transfer is in the queue and due. -/
def Due (s : Shared signature) (x : BingxTransfer) : Prop :=
  x ∈ s.db.bingxTransfers.rows ∧
    dueAt staleSeconds retryBackoffSeconds s.ext.now s.db x = true

end

/-- Where a transfer stands in the table. -/
def Database.position (d : Database) (x : BingxTransfer) : ℕ :=
  (d.bingxTransfers.rows.map BingxTransfer.id).idxOf x.id

/-- The claim takes `y` before `x`: by `created_at`, and of the same time the one that stands
first in the table. -/
def Precedes (d : Database) (y x : BingxTransfer) : Prop :=
  y.createdAt < x.createdAt ∨ y.createdAt = x.createdAt ∧ d.position y < d.position x

instance (d : Database) (y x : BingxTransfer) : Decidable (Precedes d y x) :=
  inferInstanceAs (Decidable (_ ∨ _))

/-- Of two transfers one comes first. -/
theorem precedes_or {d : Database} {x y : BingxTransfer} (hy : y ∈ d.bingxTransfers.rows)
    (hne : y.id ≠ x.id) : Precedes d y x ∨ Precedes d x y := by
  have hpos : d.position y ≠ d.position x :=
    fun h => hne ((List.idxOf_inj (List.mem_map_of_mem hy)).mp h)
  rcases lt_trichotomy y.createdAt x.createdAt with hlt | he | hgt
  · exact .inl (.inl hlt)
  · rcases Nat.lt_or_gt_of_ne hpos with hlt | hgt
    · exact .inl (.inr ⟨he, hlt⟩)
    · exact .inr (.inr ⟨he.symm, hgt⟩)
  · exact .inr (.inl hgt)

/-! ## The claim -/

/-- Time only adds to what is due. -/
theorem dueAt_mono {staleSeconds retryBackoffSeconds now now' : ℤ} {d : Database}
    {x : BingxTransfer} (h : now ≤ now')
    (hx : dueAt staleSeconds retryBackoffSeconds now d x = true) :
    dueAt staleSeconds retryBackoffSeconds now' d x = true := by
  unfold dueAt claimable at hx ⊢
  rw [Bool.and_eq_true] at hx ⊢
  refine ⟨?_, hx.2⟩
  have hor := hx.1
  rw [Bool.or_eq_true] at hor ⊢
  refine hor.imp (fun hpending => ?_) fun hstuck => ?_
  · simp only [decide_eq_true_eq] at hpending ⊢
    obtain ⟨hst, hsched, hretry⟩ := hpending
    exact ⟨hst, le_trans hsched h, hretry.imp id fun hle => le_trans hle (Int.sub_le_sub_right h _)⟩
  · by_cases hstale : staleSeconds > 0
    · simp only [if_pos hstale, Option.any_some, decide_eq_true_eq] at hstuck ⊢
      exact ⟨hstuck.1, lt_of_lt_of_le hstuck.2 (Int.sub_le_sub_right h _)⟩
    · simp only [if_neg hstale] at hstuck
      cases hstuck

/-- Of the elements that are kept, the one that stands first also has its key first. -/
theorem idxOf_key_le {α κ : Type} [DecidableEq α] [DecidableEq κ] {key : α → κ} {p : α → Bool}
    {a b : α} {l : List α} (hl : (l.map key).Nodup) (ha : a ∈ l.filter p) (hb : b ∈ l.filter p)
    (h : (l.filter p).idxOf a ≤ (l.filter p).idxOf b) :
    (l.map key).idxOf (key a) ≤ (l.map key).idxOf (key b) := by
  induction l with
  | nil => cases ha
  | cons c l ih =>
    obtain ⟨hc, hl⟩ := List.nodup_cons.mp hl
    have hne {z : α} (hz : z ∈ l.filter p) : key c ≠ key z := fun he =>
      hc (he ▸ List.mem_map_of_mem (List.mem_filter.mp hz).1)
    by_cases hp : p c = true
    · rw [List.filter_cons_of_pos hp] at ha hb h
      rcases List.mem_cons.mp ha with rfl | ha'
      · simp
      have hca : c ≠ a := fun he => hne ha' (congrArg key he)
      rcases List.mem_cons.mp hb with rfl | hb'
      · rw [List.idxOf_cons_ne _ hca, List.idxOf_cons_self] at h
        omega
      · have hcb : c ≠ b := fun he => hne hb' (congrArg key he)
        rw [List.idxOf_cons_ne _ hca, List.idxOf_cons_ne _ hcb] at h
        rw [List.map_cons, List.idxOf_cons_ne _ (hne ha'), List.idxOf_cons_ne _ (hne hb')]
        have := ih hl ha' hb' (by omega)
        omega
    · rw [List.filter_cons_of_neg hp] at ha hb h
      rw [List.map_cons, List.idxOf_cons_ne _ (hne ha), List.idxOf_cons_ne _ (hne hb)]
      have := ih hl ha hb h
      omega

/-- The claim takes the first transfer that can be claimed. -/
theorem updateNextTransfer_first {now : Timestamp} {staleCutoff : Option Timestamp}
    {retryCutoff : Timestamp} {d : Database} {eff : Effect Write Row (Option ClaimedTransfer)}
    (h : updateNextTransfer now staleCutoff retryCutoff (fun _ _ => false) d = .ok eff) :
    (eff = { value := none } ∧
      ∀ z ∈ d.bingxTransfers.rows, claimable now staleCutoff retryCutoff d z = false) ∨
      ∃ y ∈ d.bingxTransfers.rows, claimable now staleCutoff retryCutoff d y = true ∧
        (∀ z ∈ d.bingxTransfers.rows, claimable now staleCutoff retryCutoff d z = true →
          ¬ Precedes d z y) ∧
        eff = {
          value := some (returning (claim now y))
          writes := [.bingxTransfer (claim now y)]
          locks := [(.bingxTransfer y.id, .update)] } := by
  unfold updateNextTransfer at h
  simp only [Bool.not_false, Bool.and_true] at h
  split at h
  · next hnone =>
    cases h
    refine .inl ⟨rfl, fun z hz => ?_⟩
    rw [List.argmin_eq_none, List.filter_eq_nil_iff] at hnone
    simpa using hnone z hz
  · next y hy =>
    cases h
    classical
    obtain ⟨hmem, hmin, hfirst⟩ := List.mem_argmin_iff.mp (Option.mem_def.mpr hy)
    obtain ⟨hrow, hdue⟩ := List.mem_filter.mp hmem
    refine .inr ⟨y, hrow, hdue, fun z hz hdz hbefore => ?_, rfl⟩
    have hzmem := List.mem_filter.mpr ⟨hz, hdz⟩
    rcases hbefore with hlt | ⟨he, hpos⟩
    · exact absurd (hmin z hzmem) (not_le_of_gt hlt)
    · have hle := idxOf_key_le d.bingxTransfers.nodup hmem hzmem (hfirst z hzmem he.le)
      exact absurd hpos (not_lt_of_ge hle)

/-! ## One call -/

section

variable {unicode : Unicode} {staleSeconds retryBackoffSeconds : ℤ} {s s' : Shared signature}
  {r : Option (Except Error Result)} {x : Txn signature}

/-- A call claims the first transfer that is due at some moment of it, or finds none, or loses
its connection before that. -/
theorem process_cases
    (h : Ends (bank unicode) (processInTransaction staleSeconds retryBackoffSeconds) s r x s') :
    x.pending = [] ∧ (r = none ∨ r = some (.ok (.processed false)) ∧
        ∃ now, s.ext.now ≤ now ∧ ∀ z ∈ s.db.bingxTransfers.rows,
          dueAt staleSeconds retryBackoffSeconds now s.db z = false) ∨
      ∃ now y ws, s.ext.now ≤ now ∧ y ∈ s.db.bingxTransfers.rows ∧
        (∀ z ∈ s.db.bingxTransfers.rows,
          dueAt staleSeconds retryBackoffSeconds now s.db z = true → ¬ Precedes s.db z y) ∧
        x.pending = .bingxTransfer (claim now y) :: ws := by
  obtain ⟨ha⟩ := h
  obtain ⟨y₁, hp₁, ⟨rfl, rfl, -⟩ | ha⟩ := Alone.clock_cases ha
  · exact .inl ⟨rfl, .inl rfl⟩
  rcases Alone.stmt_cases ha with ⟨rfl, hr⟩ | ⟨y₂, eff, -, hq, ha⟩
  · refine .inl ⟨rfl, .inl (hr.resolve_right ?_)⟩
    rintro ⟨e, -, he⟩
    unfold updateNextTransfer at he
    simp only at he
    split at he <;> cases he
  rcases updateNextTransfer_first hq with ⟨rfl, hnone⟩ | ⟨y, hy, -, hfirst, rfl⟩
  · obtain ⟨rfl, hr⟩ := Alone.done_cases ha
    exact .inl ⟨rfl, hr.imp id fun hr => ⟨hr, _, passes_now hp₁, hnone⟩⟩
  · obtain ⟨ws, hws⟩ := ha.pending_prefix
    exact .inr ⟨_, y, ws, passes_now hp₁, hy, hfirst, hws.symm⟩

/-! ## Drains with a transfer that raises -/

/-- A transfer is still in the queue, as due as before and in the same order. -/
structure Spared (z : BingxTransfer) (d d' : Database) : Prop where
  row : z ∈ d.bingxTransfers.rows → z ∈ d'.bingxTransfers.rows
  transaction : d'.transactions.find? z.transactionId = d.transactions.find? z.transactionId
  keys : d'.bingxTransfers.rows.map BingxTransfer.id = d.bingxTransfers.rows.map BingxTransfer.id

theorem Spared.refl (z : BingxTransfer) (d : Database) : Spared z d d := ⟨id, rfl, rfl⟩

theorem Spared.due {z : BingxTransfer} (h : Spared z s.db s'.db)
    (hnow : s.ext.now ≤ s'.ext.now) (hz : Due staleSeconds retryBackoffSeconds s z) :
    Due staleSeconds retryBackoffSeconds s' z := by
  refine ⟨h.row hz.1, dueAt_mono hnow ?_⟩
  have hdue := hz.2
  unfold dueAt claimable at hdue ⊢
  rw [h.transaction]
  exact hdue

theorem Spared.precedes_iff {y z : BingxTransfer} {d d' : Database} (h : Spared z d d') :
    Precedes d' y z ↔ Precedes d y z := by
  unfold Precedes Database.position
  rw [h.keys]

/-- A call that returns `True` spares the other transfers. -/
theorem Settles.spared {y y' z : BingxTransfer} (h : Settles s y y' s') (hi : Inv s)
    (hz : z ∈ s.db.bingxTransfers.rows) (hne : z.id ≠ y.id) : Spared z s.db s'.db := by
  refine ⟨fun _ => ?_, h.transactions _ fun he => hne ?_, h.keys⟩
  · have hrow := (h.find?_ne hne).trans (Table.find?_of_mem hz)
    exact Table.mem_of_find? hrow
  · exact congrArg _ (hi.sound.single z hz y h.row he)

/-- A call that does not end by a value changes no table. -/
theorem db_of_raises
    (h : Ends (bank unicode) (processInTransaction staleSeconds retryBackoffSeconds) s r x s')
    (hr : ∀ v, r ≠ some (.ok v)) : s'.db = s.db := by
  obtain ⟨ha⟩ := h
  match r with
  | some (.ok v) => exact absurd rfl (hr v)
  | some (.error _) | none => exact ha.db_eq

theorem now_of_ends (hi : Inv s)
    (h : Ends (bank unicode) (processInTransaction staleSeconds retryBackoffSeconds) s r x s') :
    Inv s' ∧ s.ext.now ≤ s'.ext.now := by
  obtain ⟨hi', hl, -⟩ := (payments_valid unicode).ends trivial rfl h hi
  exact ⟨hi', hl.lift (r := fun s s' : Shared signature => s.ext.now ≤ s'.ext.now)
    (fun _ => le_refl _) (fun _ _ _ => le_trans) fun _ _ (hg : Guar _ _) => hg.now⟩

theorem eq_of_id {y z : BingxTransfer} (hy : y ∈ s.db.bingxTransfers.rows)
    (hz : z ∈ s.db.bingxTransfers.rows) (h : y.id = z.id) : y = z :=
  Table.eq_of_key hy hz h

variable {ps : List ProcessStep} {y z : BingxTransfer}

/-- Every call with the transfer `z` raises, and no other call does. -/
def OnlyRaises (z : BingxTransfer) (ps : List ProcessStep) : Prop :=
  ∀ p ∈ ps, p.Raises ↔ p.claimed? = some z.id

/-- A drain with such a transfer that is due processes the due transfers before it, and the
transfer stays due. -/
theorem drain_spares (hd : Drains unicode staleSeconds retryBackoffSeconds s ps s') (hi : Inv s)
    (hz : Due staleSeconds retryBackoffSeconds s z) (hbad : OnlyRaises z ps) :
    (∀ y, Due staleSeconds retryBackoffSeconds s y → y.id ≠ z.id →
      ((∃ p ∈ ps, p.Processes y.id) ↔ Precedes s.db y z)) ∧
      Due staleSeconds retryBackoffSeconds s' z := by
  induction hd with
  | @last s s' r x hends hlast =>
    obtain ⟨hi', hnow⟩ := now_of_ends hi hends
    have hraises := hbad _ List.mem_cons_self
    rcases process_cases hends with ⟨hnil, hr⟩ | ⟨now, y₁, ws, hle, hy₁, hfirst, hpending⟩
    · -- with a transfer that is due the claim is not empty
      have hclaimed : (⟨s, r, x, s'⟩ : ProcessStep).claimed? = none := by
        rw [ProcessStep.claimed?, hnil]
        rfl
      rcases hr with rfl | ⟨-, now, hle, hnone⟩
      · have hlost : (⟨s, none, x, s'⟩ : ProcessStep).Raises := fun v hv => by cases hv
        rw [hraises.mp hlost] at hclaimed
        cases hclaimed
      · have hdue := dueAt_mono hle hz.2
        rw [hnone z hz.1] at hdue
        cases hdue
    · have hno : ∀ v, r ≠ some (.ok v) := by
        rintro v rfl
        cases process_settles hends with
        | inl hidle =>
          rw [hpending] at hidle
          cases hidle.2
        | inr htrue => exact hlast (congrArg (some ∘ Except.ok) htrue.1)
      have hclaimed := claimed?_of_pending (p := ⟨s, r, x, s'⟩) hpending
      have hsame : y₁ = z := by
        refine eq_of_id hy₁ hz.1 (Option.some.inj ?_)
        rw [← hclaimed]
        exact hraises.mp hno
      subst hsame
      refine ⟨fun y hy hne => iff_of_false ?_ (hfirst y hy.1 (dueAt_mono hle hy.2)), ?_⟩
      · rintro ⟨p, hp, hproc⟩
        rw [List.mem_singleton.mp hp] at hproc
        exact hno _ hproc.2
      · have hspared : Spared y₁ s.db s'.db := by
          rw [db_of_raises hends hno]
          exact .refl _ _
        exact hspared.due hnow hz
  | @next s s₁ s' x ps hends hd ih =>
    obtain ⟨hi₁, hnow⟩ := now_of_ends hi hends
    have hraises := hbad _ List.mem_cons_self
    have hbad' : OnlyRaises z ps := fun p hp => hbad p (List.mem_cons_of_mem _ hp)
    rcases process_cases hends with ⟨-, hr | ⟨hr, -⟩⟩ | ⟨now, y₁, ws, hle, hy₁, hfirst, hpending⟩
    · cases hr
    · cases hr
    · obtain ⟨y₂, y', hclaimed, hsettles⟩ := exists_settles hends
      have hsame : (⟨s, some (.ok (.processed true)), x, s₁⟩ : ProcessStep).claimed? = some y₁.id :=
        claimed?_of_pending hpending
      have hid : y₂.id = y₁.id := Option.some.inj (hclaimed.symm.trans hsame)
      obtain rfl : y₂ = y₁ := eq_of_id hsettles.row hy₁ hid
      have hzne : z.id ≠ y₂.id := by
        intro he
        rw [hclaimed, he] at hraises
        exact hraises.mpr rfl _ rfl
      have hzspared := hsettles.spared hi hz.1 hzne
      obtain ⟨hrest, hdue⟩ := ih hi₁ (hzspared.due hnow hz) hbad'
      refine ⟨fun y hy hne => ?_, hdue⟩
      by_cases hyid : y.id = y₂.id
      · obtain rfl : y = y₂ := eq_of_id hy.1 hy₁ hyid
        refine iff_of_true ⟨_, List.mem_cons_self, hclaimed, rfl⟩ ?_
        exact (precedes_or hy.1 hne).resolve_right (hfirst z hz.1 (dueAt_mono hle hz.2))
      · have hyspared := hsettles.spared hi hy.1 hyid
        rw [← hzspared.precedes_iff, ← hrest y (hyspared.due hnow hy) hne, List.exists_mem_cons_iff]
        refine or_iff_right fun hproc => hyid ?_
        exact Option.some.inj (hproc.1.symm.trans hclaimed)

variable {start : Shared signature} {tr : List (Transition signature)} {cs : List DrainCycle}

/-- A drain can be run while no session is open. -/
theorem Drains.canReach {jobs : Job → Prop}
    (hd : Drains unicode staleSeconds retryBackoffSeconds s ps s')
    (hj : jobs (processInTransaction staleSeconds retryBackoffSeconds)) :
    CanReach (bank unicode) jobs (.idle s) (.idle s') := by
  induction hd with
  | last hends _ => exact hends.canReach rfl hj
  | next hends _ ih => exact (hends.canReach rfl hj).trans ih

theorem Drains.run (hd : Drains unicode staleSeconds retryBackoffSeconds s ps s')
    (hr : Run (bank unicode) start tr (.idle s)) :
    ∃ tr', Run (bank unicode) start (tr' ++ tr) (.idle s') := by
  have hreach : CanReach (bank unicode) (fun _ => True) (.idle s) (.idle s') :=
    hd.canReach trivial
  exact hreach.run hr

/-- While one transfer that is due always raises, and no other does, every drain ends and
processes exactly those of the other due transfers that come before it. -/
theorem drain_processes_iff (hs : Opening start) (hr : Run (bank unicode) start tr (.idle s))
    (hc : DrainCycles unicode staleSeconds retryBackoffSeconds s cs s')
    (hz : Due staleSeconds retryBackoffSeconds s z) (hbad : ∀ c ∈ cs, OnlyRaises z c.steps) :
    ∀ c ∈ cs,
      (¬ ∃ (f : ℕ → Shared signature) (xs : ℕ → Txn signature), f 0 = c.start ∧
        ∀ n, Ends (bank unicode) (processInTransaction staleSeconds retryBackoffSeconds) (f n)
          (some (.ok (.processed true))) (xs n) (f (n + 1))) ∧
      ∀ y, Due staleSeconds retryBackoffSeconds c.start y → y.id ≠ z.id →
        ((∃ p ∈ c.steps, p.Processes y.id) ↔ Precedes c.start.db y z) := by
  induction hc generalizing tr with
  | nil => exact nofun
  | @cons s s₁ s' y ps cs hpass hd _ ih =>
    obtain ⟨tr₁, hr₁⟩ := hpass.run hr
    have hi : Inv ⟨s.db, y⟩ := ((payments_valid unicode).run hs.inv hr₁ (starts_any _)).inv
    have hz₁ : Due staleSeconds retryBackoffSeconds ⟨s.db, y⟩ z :=
      Spared.due (s := s) (.refl _ _) (passes_now hpass) hz
    obtain ⟨hiff, hz'⟩ := drain_spares hd hi hz₁ (hbad _ List.mem_cons_self)
    obtain ⟨tr₂, hr₂⟩ := hd.run hr₁
    intro c hmem
    rcases List.mem_cons.mp hmem with rfl | hmem
    · refine ⟨?_, hiff⟩
      rintro ⟨f, xs, hf, hends⟩
      have hfirst : Meanwhile ⟨s.db, y⟩ (f 0) := by
        rw [hf]
        exact .refl _
      exact not_endless _ ⟨f, fun n => f (n + 1), xs, hfirst, fun n => ⟨hends n, .refl _⟩⟩
    · exact ih hr₂ hz' (fun c hc => hbad c (List.mem_cons_of_mem _ hc)) c hmem

end

/-! ## As a function -/

namespace ProcessStep

def raised (p : ProcessStep) : Bool :=
  match p.result with
  | some (.ok _) => false
  | _ => true

theorem raises_iff (p : ProcessStep) : p.Raises ↔ p.raised = true := by
  obtain ⟨s, r, x, s'⟩ := p
  match r with
  | some (.ok v) => exact iff_of_false (fun h => h v rfl) nofun
  | some (.error e) => exact iff_of_true (fun v hv => by cases hv) rfl
  | none => exact iff_of_true (fun v hv => by cases hv) rfl

end ProcessStep

/-- `_drain` with the answers of BingX, as long as the fuel lasts. -/
def drain (unicode : Unicode) (staleSeconds retryBackoffSeconds : ℤ) :
    ℕ → List Answer → Shared signature → Option (List ProcessStep × Shared signature)
  | 0, _, _ => none
  | fuel + 1, answers, s =>
    match (program unicode (processInTransaction staleSeconds retryBackoffSeconds)).play
        (bank unicode) answers [] {} s with
    | none => none
    | some (.ok (.processed true), x, s') =>
      let after : Shared signature := ⟨replay x.pending s'.db, s'.ext⟩
      (drain unicode staleSeconds retryBackoffSeconds fuel (answers.drop x.calls.length) after).map
        fun r => (⟨s, some (.ok (.processed true)), x, after⟩ :: r.1, r.2)
    | some (r, x, s') => some ([⟨s, some r, x, settled (some r) x s'⟩], settled (some r) x s')

theorem drains_of_drain {unicode : Unicode} {staleSeconds retryBackoffSeconds : ℤ} {fuel : ℕ}
    {answers : List Answer} {s s' : Shared signature} {ps : List ProcessStep}
    (h : drain unicode staleSeconds retryBackoffSeconds fuel answers s = some (ps, s')) :
    Drains unicode staleSeconds retryBackoffSeconds s ps s' := by
  induction fuel generalizing answers s ps with
  | zero => cases h
  | succ fuel ih =>
    simp only [drain] at h
    split at h
    · cases h
    · next x s₁ hplay =>
      obtain ⟨⟨ps', s''⟩, hrest, he⟩ := Option.map_eq_some_iff.mp h
      cases he
      exact .next ⟨Prog.alone_of_play hplay⟩ (ih hrest)
    · next r x s₁ hne hplay =>
      cases h
      exact .last ⟨Prog.alone_of_play hplay⟩ fun he => hne (Option.some.inj he)

/-- Two deposits are paid, one second after the other. -/
def twoPaid : List (Action signature) :=
  paidDeposit ++ .event (.tick 1000000) ::
    .start 0 (.createDeposit depositSettings aliceDeposit) :: runs 0 3 ++ .give 0 "deposit2" ::
    runs 0 4 ++
    .start 0 (.sbpPaymentWebhook { alicePayment with
      transactionId := "deposit2"
      transactionId_nonempty := by decide } 0) :: runs 0 6 ++
    .give 0 "payout2" :: runs 0 5

/-- BingX accepts, with an id that is too long for its column. -/
def longAcceptance : Answer :=
  .response ⟨200, "", .ok (.obj [("code", .int 0),
    ("data", .obj [("id", .str (String.ofList (List.replicate 129 '1')))])])⟩

/-- The two payouts are due, the first before the second, nobody else is there, and the drain
with these answers makes these calls, each with whether it raises. -/
def drainsTo (answers : List Answer) (calls : List (Option String × Bool)) (w : World signature) :
    Bool :=
  match w.shared.db.bingxTransfers.find? "payout", w.shared.db.bingxTransfers.find? "payout2",
    drain .ascii 0 0 3 answers w.shared with
  | some y, some z, some r =>
    w.sessions.rows.isEmpty && dueAt 0 0 w.shared.ext.now w.shared.db y &&
      dueAt 0 0 w.shared.ext.now w.shared.db z && decide (Precedes w.shared.db y z) &&
        decide (r.1.map (fun p => (p.claimed?, p.raised)) = calls)
  | _, _, _ => false

theorem of_drainsTo {answers : List Answer} {calls : List (Option String × Bool)}
    {w : World signature} (h : drainsTo answers calls w = true) :
    w = .idle w.shared ∧ ∃ y z ps s', y.id = "payout" ∧ z.id = "payout2" ∧
      Due 0 0 w.shared y ∧ Due 0 0 w.shared z ∧ Precedes w.shared.db y z ∧
      Drains .ascii 0 0 w.shared ps s' ∧ ps.map (fun p => (p.claimed?, p.raised)) = calls := by
  unfold drainsTo at h
  split at h
  · next y z r hy hz hr =>
    simp only [Bool.and_eq_true, decide_eq_true_eq, List.isEmpty_iff] at h
    obtain ⟨⟨⟨⟨hidle, hdy⟩, hdz⟩, hbefore⟩, hcalls⟩ := h
    refine ⟨?_, y, z, r.1, r.2, Table.key_of_find? hy, Table.key_of_find? hz,
      ⟨Table.mem_of_find? hy, hdy⟩, ⟨Table.mem_of_find? hz, hdz⟩, hbefore, drains_of_drain hr,
      hcalls⟩
    obtain ⟨sh, sessions⟩ := w
    exact congrArg (World.mk sh) (Table.ext hidle)
  · cases h

theorem onlyRaises_of_calls {ps : List ProcessStep} {calls : List (Option String × Bool)}
    {z : BingxTransfer} (h : ps.map (fun p => (p.claimed?, p.raised)) = calls)
    (hcalls : ∀ c ∈ calls, c.2 = decide (c.1 = some z.id)) : OnlyRaises z ps := by
  intro p hp
  have hp' : (p.claimed?, p.raised) ∈ calls := h ▸ List.mem_map_of_mem hp
  have hraised : p.raised = decide (p.claimed? = some z.id) := hcalls _ hp'
  rw [p.raises_iff, hraised, decide_eq_true_eq]

/-- The newer payout cannot be recorded; the older one is processed before it. -/
theorem drain_processes_iff_newer : ∃ (c : DrainCycle) (z y : BingxTransfer),
    OnlyRaises z c.steps ∧ Due 0 0 c.start y ∧ y.id ≠ z.id ∧ ∃ p ∈ c.steps, p.Processes y.id := by
  obtain ⟨tr, w, hr, -, hw⟩ := Run.exists_of_trace (bank .ascii) launch twoPaid
    (fun r => drainsTo [acceptance, longAcceptance]
      [(some "payout", false), (some "payout2", true)] r.2) (b := true) (by decide +kernel)
  obtain ⟨hidle, y, z, ps, s', hy, hz, hdy, hdz, hbefore, hd, hcalls⟩ := of_drainsTo hw
  have hidle : w = .idle w.shared := hidle
  rw [hidle] at hr
  have hbad : OnlyRaises z ps := onlyRaises_of_calls hcalls (by rw [hz]; decide)
  have hne : y.id ≠ z.id := by
    rw [hy, hz]
    decide
  have hiff := drain_processes_iff opening_launch hr (.cons .refl hd .nil) hdz
    (by simpa using hbad) _ List.mem_cons_self
  exact ⟨⟨w.shared, ps⟩, z, y, hbad, hdy, hne, (hiff.2 y hdy hne).mpr hbefore⟩

/-- An older payout that cannot be recorded keeps the newer one in the queue. -/
theorem not_drain_processes : ¬ ∀ (unicode : Unicode) (staleSeconds retryBackoffSeconds : ℤ)
    (start s s' : Shared signature) (tr : List (Transition signature)) (cs : List DrainCycle)
    (z : BingxTransfer), Opening start → Run (bank unicode) start tr (.idle s) →
    DrainCycles unicode staleSeconds retryBackoffSeconds s cs s' →
    Due staleSeconds retryBackoffSeconds s z → (∀ c ∈ cs, OnlyRaises z c.steps) →
    ∀ c ∈ cs, ∀ y, Due staleSeconds retryBackoffSeconds c.start y → y.id ≠ z.id →
      ∃ p ∈ c.steps, p.Processes y.id := by
  intro h
  obtain ⟨tr, w, hr, -, hw⟩ := Run.exists_of_trace (bank .ascii) launch twoPaid
    (fun r => drainsTo [longAcceptance] [(some "payout", true)] r.2) (b := true) (by decide +kernel)
  obtain ⟨hidle, z, y, ps, s', hz, hy, hdz, hdy, -, hd, hcalls⟩ := of_drainsTo hw
  have hidle : w = .idle w.shared := hidle
  rw [hidle] at hr
  have hbad : OnlyRaises z ps := onlyRaises_of_calls hcalls (by rw [hz]; decide)
  have hne : y.id ≠ z.id := by
    rw [hy, hz]
    decide
  obtain ⟨p, hp, hclaimed, -⟩ := h .ascii 0 0 launch w.shared s' tr _ z opening_launch hr
    (.cons .refl hd .nil) hdz (by simpa using hbad) _ List.mem_cons_self y hdy hne
  -- the only call of the drain is the one that raises
  have hmem : (p.claimed?, p.raised) ∈ [(some "payout", true)] := hcalls ▸ List.mem_map_of_mem hp
  rw [hclaimed, hy] at hmem
  simp at hmem

end MoneyWay
