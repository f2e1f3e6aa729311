import MoneyWay.Library.ReadCommitted.Contract
import MoneyWay.Library.ReadCommitted.Step

/-!
# Histories of sessions that meet a contract

`Contract.Safe.step` is the step lemma and `Contract.Valid.run` the rule for whole
histories: every world of a history is safe, every transition leaves the shared
state alone or changes it as the contract allows, and what is known at a commit
holds where the commit happens.
-/

set_option autoImplicit false

namespace ReadCommitted

open Keyed

section

variable {σ : Signature} [Store σ.Db σ.Write σ.Row]

namespace Contract

variable {P : Contract σ} {S : System σ} {jobs : σ.Job → Prop}

/-- A session that has ended leaves a safe world. -/
theorem Safe.ended {w : World σ} (h : P.Safe S jobs w) (i : ℕ) :
    P.Safe S jobs ⟨w.shared, w.sessions.erase i⟩ :=
  h.erase h.inv (.refl _) fun _ _ _ => .refl h.inv

/-- A session has gone on without a new lock, and the shared state may have changed
outside the database. -/
theorem Safe.moved {w : World σ} (h : P.Safe S jobs w) {s s' : Session σ}
    (hs : s ∈ w.sessions.rows) {x : σ.External}
    (hl : x = w.shared.ext ∨ P.Link w.shared ⟨w.shared.db, x⟩) (hid : s'.id = s.id)
    (hjob : s'.job = s.job) (hpend : s'.txn.pending = s.txn.pending)
    (hheld : s'.txn.held = s.txn.held) (hsnap : s'.txn.snapshots = s.txn.snapshots)
    (hm : P.Meets S s' ⟨w.shared.db, x⟩) :
    P.Safe S jobs ⟨⟨w.shared.db, x⟩, w.sessions.put s'⟩ := by
  have hlater : ∀ held, P.Later held w.shared ⟨w.shared.db, x⟩ := by
    rcases hl with rfl | hl
    · exact fun _ => .refl h.inv
    · exact fun _ => later_of_ext hl
  refine h.put (hlater []).inv (hjob ▸ h.allowed s hs) (hlater []).leads
    (fun _ _ _ => hlater _) hm ?_ ?_ ?_
  · exact fun p hp => (h.past s hs).leads (hlater []).leads p (hsnap ▸ hp)
  · rw [hpend, hheld]
    exact h.covered s hs
  · rw [hheld]
    exact fun t ht hne => h.exclusive s hs t ht (hid ▸ hne.symm)

variable [DecidableEq σ.Row]

/-- The step lemma: an operation of a session keeps the world safe. -/
theorem Safe.advance (hv : P.Valid S jobs) {w : World σ} (h : P.Safe S jobs w) {s : Session σ}
    (hs : s ∈ w.sessions.rows) {sh : Shared σ} {r : Option (Session σ)}
    (ha : s.Advances S (w.blocked s.id) w.shared sh r) :
    P.Safe S jobs (w.settle s.id sh r) ∧ (sh = w.shared ∨ P.Link w.shared sh) := by
  have hm := h.meets s hs
  cases ha with
  | commit hp =>
    by_cases hauto : S.autocommit s.job = true
    · -- everything has been committed statement by statement
      obtain ⟨-, hpend, -⟩ := by simpa only [Meets, if_pos hauto] using hm
      rw [hpend]
      exact ⟨h.ended s.id, .inl rfl⟩
    · simp only [Meets, if_neg hauto, hp, Ok, Wp, AtCommit] at hm
      obtain ⟨hg, hi⟩ := hv.commit s.job _ s.txn w.shared (h.allowed s hs)
        (Bool.eq_false_iff.mpr hauto) h.inv (h.past s hs) (hm _ (.refl h.inv))
      have hl : P.Link w.shared ⟨replay s.txn.pending w.shared.db, w.shared.ext⟩ :=
        ⟨h.inv, hg, hi⟩
      exact ⟨h.erase hi hl.leads fun t ht hne => h.later_of_session hs hl ht hne, .inr hl⟩
  | abort hp => exact ⟨h.ended s.id, .inl rfl⟩
  | fail hp =>
    refine ⟨h.moved hs (.inl rfl) rfl rfl rfl rfl rfl ?_, .inl rfl⟩
    unfold Meets at hm ⊢
    split at hm
    · next hauto => rw [if_pos hauto]; exact ⟨trivial, hm.2⟩
    · next hauto => rw [if_neg hauto]; trivial
  | together hp hq hb hauto =>
    rename_i β q k eff
    simp only [Meets, hauto, Bool.false_eq_true, if_false, hp, Ok, Wp] at hm
    obtain ⟨-, hok⟩ := hm _ (.refl h.inv) _ _ hq
    refine ⟨h.put h.inv (h.allowed s hs) (.refl _) (fun _ _ _ => .refl h.inv) ?_ ?_ ?_ ?_,
      .inl rfl⟩
    · simpa only [Meets, hauto, Bool.false_eq_true, if_false, Ok] using hok
    · intro p hpast
      rcases List.mem_append.mp hpast with hpast | hpast
      · exact h.past s hs p hpast
      · obtain rfl := List.mem_singleton.mp hpast
        exact ⟨h.inv, .refl _⟩
    · intro v hv' r hr
      rcases List.mem_append.mp hv' with hv' | hv'
      · exact List.mem_append_left _ (h.covered s hs v hv' r hr)
      · exact List.mem_append_right _
          (List.mem_append_right _ (mem_writeLocks.mpr ⟨rfl, v, hv', hr⟩))
    · intro t ht hne l hl m hml he
      rcases List.mem_append.mp hl with hl | hl
      · exact h.exclusive s hs t ht hne.symm l hl m hml he
      · rw [LockMode.conflicts_comm]
        obtain ⟨r, n⟩ := m
        obtain rfl : l.1 = r := he
        exact not_blocked (by simpa using List.any_eq_false.mp hb l hl) ht hne hml
  | single hp hq hb hauto =>
    simp only [Meets, hauto, if_true, hp, OkAuto, WpAuto] at hm
    obtain ⟨hok, hpend, hheld⟩ := hm
    rw [hpend] at hq
    obtain ⟨⟨hl, -⟩, hk⟩ := hok _ (.refl h.inv) _ _ hq
    refine ⟨h.put hl.inv' (h.allowed s hs) hl.leads
      (fun t ht hne => later_of_statement hb hl ht hne) ?_ ?_ ?_ ?_, .inr hl⟩
    · simpa only [Meets, hauto, if_true, OkAuto] using ⟨hk, hpend, hheld⟩
    · intro p hpast
      rcases List.mem_append.mp hpast with hpast | hpast
      · exact (h.past s hs).leads hl.leads p hpast
      · obtain rfl := List.mem_singleton.mp hpast
        exact ⟨h.inv, hl.leads⟩
    · simp [Txn.glanced, hpend]
    · simp [Txn.glanced, hheld]
  | clock hp =>
    refine ⟨h.moved hs (.inl rfl) rfl rfl rfl rfl rfl ?_, .inl rfl⟩
    unfold Meets at hm ⊢
    split at hm
    · next hauto =>
      rw [if_pos hauto]
      rw [hp] at hm
      exact ⟨hm.1 _ (.refl h.inv), hm.2⟩
    · next hauto =>
      rw [if_neg hauto]
      rw [hp] at hm
      exact hm _ (.refl h.inv)
  | send hp =>
    unfold Meets at hm
    split at hm
    · next hauto =>
      rw [hp] at hm
      obtain ⟨hok, hrest⟩ := hm
      obtain ⟨-, hl, hk⟩ := hok _ (.refl h.inv)
      refine ⟨h.moved hs (.inr hl) rfl rfl rfl rfl rfl ?_, .inr hl⟩
      simpa only [Meets, if_pos hauto] using ⟨hk, hrest⟩
    · next hauto =>
      rw [hp] at hm
      obtain ⟨-, hl, hk⟩ := hm _ (.refl h.inv)
      refine ⟨h.moved hs (.inr hl) rfl rfl rfl rfl rfl ?_, .inr hl⟩
      unfold Meets
      rw [if_neg hauto]
      exact hk

/-- The step lemma for every action. -/
theorem Safe.step (hv : P.Valid S jobs) {w w' : World σ} {a : Action σ} (h : P.Safe S jobs w)
    (hj : ∀ i j, a = .start i j → jobs j) (ha : w.step S a = some w') :
    P.Safe S jobs w' ∧ (w'.shared = w.shared ∨ P.Link w.shared w'.shared) := by
  cases World.stepTo ha with
  | @start i j =>
    refine ⟨h.put h.inv (hj i j rfl) (.refl _) (fun _ _ _ => .refl h.inv)
      (hv.program j (hj i j rfl) _ h.inv) ?_ ?_ ?_, .inl rfl⟩
    all_goals simp [Past]
  | run hs hr =>
    rw [World.settle_shared]
    exact h.advance hv (Table.mem_of_find? hs) (Session.advances hr)
  | @give s k i hs hp =>
    have hs := Table.mem_of_find? hs
    have hm := h.meets s hs
    refine ⟨h.moved hs (.inl rfl) rfl rfl rfl rfl rfl ?_, .inl rfl⟩
    unfold Meets at hm ⊢
    rw [hp] at hm
    split at hm
    · next hauto => rw [if_pos hauto]; exact ⟨hm.1 i, hm.2⟩
    · next hauto => rw [if_neg hauto]; exact hm i
  | @answer s q k b hs hp =>
    have hs := Table.mem_of_find? hs
    have hm := h.meets s hs
    refine ⟨h.moved hs (.inl rfl) rfl rfl rfl rfl rfl ?_, .inl rfl⟩
    unfold Meets at hm ⊢
    rw [hp] at hm
    split at hm
    · next hauto => rw [if_pos hauto]; exact ⟨hm.1 b, hm.2⟩
    · next hauto => rw [if_neg hauto]; exact hm b
  | @rollback s => exact ⟨h.ended s.id, .inl rfl⟩
  | @event e x hx =>
    obtain ⟨hg, hi⟩ := hv.event e _ x h.inv hx
    have hl : P.Link w.shared ⟨w.shared.db, x⟩ := ⟨h.inv, hg, hi⟩
    refine ⟨⟨hi, h.allowed, fun s hs => (h.meets s hs).later (later_of_ext hl),
      fun s hs => (h.past s hs).leads hl.leads, h.covered, h.exclusive⟩, .inr hl⟩

/-- Only jobs of the given kind are started. -/
def Starts (jobs : σ.Job → Prop) (tr : List (Transition σ)) : Prop :=
  ∀ x ∈ tr, ∀ i j, x.action = .start i j → jobs j

omit [Store σ.Db σ.Write σ.Row] [DecidableEq σ.Row] in
theorem Starts.of_actions {as : List (Action σ)} {tr : List (Transition σ)}
    (h : tr.map Transition.action = as.reverse) (hj : ∀ a ∈ as, ∀ j ∈ a.job?, jobs j) :
    Starts jobs tr := by
  intro x hx i j he
  have ha : x.action ∈ as := by
    rw [← List.mem_reverse, ← h]
    exact List.mem_map_of_mem hx
  rw [he] at ha
  exact hj _ ha j rfl

/-- The rule for histories: every world reached is safe. -/
theorem Valid.run (hv : P.Valid S jobs) {start : Shared σ} (hi : P.inv start)
    {tr : List (Transition σ)} {w : World σ} (h : Run S start tr w) (hj : Starts jobs tr) :
    P.Safe S jobs w := by
  induction h with
  | nil => exact ⟨hi, by simp [World.idle, Table.empty], by simp [World.idle, Table.empty],
      by simp [World.idle, Table.empty], by simp [World.idle, Table.empty],
      by simp [World.idle, Table.empty]⟩
  | snoc _ hstep ih =>
    exact ((ih fun x hx => hj x (List.mem_cons_of_mem _ hx)).step hv
      (hj _ List.mem_cons_self) hstep).1

/-- Every transition of a history leaves the shared state or changes it as allowed. -/
theorem Valid.transition (hv : P.Valid S jobs) {start : Shared σ} (hi : P.inv start)
    {tr : List (Transition σ)} {w : World σ} (h : Run S start tr w) (hj : Starts jobs tr)
    {x : Transition σ} (hx : x ∈ tr) :
    P.Safe S jobs x.before ∧
      (x.after.shared = x.before.shared ∨ P.Link x.before.shared x.after.shared) := by
  obtain ⟨early, -, hsub, hr, hstep⟩ := h.cut_of_mem hx
  have hs := hv.run hi hr fun y hy => hj y (hsub y hy)
  exact ⟨hs, (hs.step hv (hj x hx) hstep).2⟩

/-- What is known when a session commits. -/
theorem Valid.commits (hv : P.Valid S jobs) {start : Shared σ} (hi : P.inv start)
    {tr : List (Transition σ)} {w : World σ} (h : Run S start tr w) (hj : Starts jobs tr)
    {x : Transition σ} (hx : x ∈ tr) {s : Session σ} {v : σ.Result} (hc : x.Commits s v)
    (ha : S.autocommit s.job = false) :
    P.post s.job v s.txn x.before.shared ∧ P.Past s.txn x.before.shared ∧
      x.after.shared = ⟨replay s.txn.pending x.before.shared.db, x.before.shared.ext⟩ := by
  obtain ⟨early, -, hsub, hr, hstep⟩ := h.cut_of_mem hx
  have hs := hv.run hi hr fun y hy => hj y (hsub y hy)
  obtain ⟨hfind, hact, hprog⟩ := hc
  have hmem := Table.mem_of_find? hfind
  refine ⟨?_, hs.past s hmem, ?_⟩
  · have hm := hs.meets s hmem
    simp only [Meets, ha, Bool.false_eq_true, if_false, hprog, Ok, Wp, AtCommit] at hm
    exact hm _ (.refl hs.inv)
  · rw [hact] at hstep
    simp only [World.step, hfind, Option.bind_some, Session.advance, hprog, Option.map_some,
      Option.some.injEq] at hstep
    rw [← hstep]
    rfl

/-- What is known when a session sends a request. -/
theorem Valid.sends (hv : P.Valid S jobs) {start : Shared σ} (hi : P.inv start)
    {tr : List (Transition σ)} {w : World σ} (h : Run S start tr w) (hj : Starts jobs tr)
    {x : Transition σ} (hx : x ∈ tr) {q : σ.Request} (hq : x.request? = some q) :
    ∃ j, jobs j ∧ P.sends j q x.before.shared := by
  obtain ⟨early, -, hsub, hr, -⟩ := h.cut_of_mem hx
  have hs := hv.run hi hr fun y hy => hj y (hsub y hy)
  unfold Transition.request? at hq
  split at hq
  · split at hq
    · next id job p k txn hfind =>
      cases hq
      have hmem := Table.mem_of_find? hfind
      refine ⟨job, hs.allowed _ hmem, ?_⟩
      have hm := hs.meets _ hmem
      unfold Meets at hm
      split at hm
      · exact (hm.1 _ (.refl hs.inv)).1
      · exact (hm _ (.refl hs.inv)).1
    · cases hq
  · cases hq

omit [DecidableEq σ.Row] in
/-- A valid contract may be made stricter, in its invariant and in its guarantee, if every
commit keeps to it and so does what lies outside. -/
theorem Valid.refine (hv : P.Valid S jobs) (ha : ∀ j, jobs j → S.autocommit j = false)
    (P' : Contract σ) (hinv : ∀ s, P'.inv s → P.inv s) (hguar : ∀ s s', P'.guar s s' → P.guar s s')
    (hask : P'.ask = P.ask) (hsends : P'.sends = P.sends) (hpost : P'.post = P.post)
    (hext : ∀ s x, P'.inv s → P.Link s ⟨s.db, x⟩ → P'.guar s ⟨s.db, x⟩ ∧ P'.inv ⟨s.db, x⟩)
    (hcommit : ∀ j v x s, jobs j → P'.inv s → P'.Past x s → P.post j v x s →
      P.Link s ⟨replay x.pending s.db, s.ext⟩ →
      P'.guar s ⟨replay x.pending s.db, s.ext⟩ ∧ P'.inv ⟨replay x.pending s.db, s.ext⟩) :
    P'.Valid S jobs := by
  refine ⟨fun j hj s hs => ?_, fun j v x s hj hauto hs hpast ho => ?_, fun e s y hs he => ?_⟩
  · have hm := hv.program j hj s (hinv s hs)
    simp only [Meets, ha j hj, Bool.false_eq_true, if_false] at hm ⊢
    refine hm.refine P' hinv hguar hask hsends hpost fun _ q s hs _ hl => ?_
    obtain ⟨hg, hi⟩ := hext s _ hs hl
    exact ⟨hs, hg, hi⟩
  · have ho' : P.post j v x s := hpost ▸ ho
    obtain ⟨hg, hi⟩ := hv.commit j v x s hj hauto (hinv s hs)
      (fun q hq => ⟨hinv q (hpast q hq).1, (hpast q hq).2.weaken P hinv hguar⟩) ho'
    exact hcommit j v x s hj hs hpast ho' ⟨hinv s hs, hg, hi⟩
  · obtain ⟨hg, hi⟩ := hv.event e s y (hinv s hs) he
    exact hext s y hs ⟨hinv s hs, hg, hi⟩

omit [DecidableEq σ.Row] in
/-- The same for one more invariant that does not depend on what lies outside. -/
theorem Valid.strengthen (hv : P.Valid S jobs) (ha : ∀ j, jobs j → S.autocommit j = false)
    {I : Shared σ → Prop} (hext : ∀ s x, I s → I ⟨s.db, x⟩)
    (hcommit : ∀ j v x s, jobs j → P.inv s → I s →
      ({ P with inv := fun s => P.inv s ∧ I s } : Contract σ).Past x s → P.post j v x s →
      I ⟨replay x.pending s.db, s.ext⟩) :
    ({ P with inv := fun s => P.inv s ∧ I s } : Contract σ).Valid S jobs :=
  hv.refine ha _ (fun _ h => h.1) (fun _ _ h => h) rfl rfl rfl
    (fun s _ hs hl => ⟨hl.guar, hl.inv', hext s _ hs.2⟩)
    fun j v x s hj hs hpast ho hl => ⟨hl.guar, hl.inv', hcommit j v x s hj hs.1 hs.2 hpast ho⟩

/-- What a transition does to the shared state. -/
inductive Change (P : Contract σ) (S : System σ) (jobs : σ.Job → Prop) (x : Transition σ) : Prop
  | silent : (∀ s v, ¬ x.Commits s v) → x.after.shared = x.before.shared → Change P S jobs x
  | commit {s : Session σ} {v : σ.Result} : x.Commits s v → jobs s.job →
      S.autocommit s.job = false → P.post s.job v s.txn x.before.shared →
      P.Past s.txn x.before.shared →
      x.after.shared = ⟨replay s.txn.pending x.before.shared.db, x.before.shared.ext⟩ →
      Change P S jobs x
  | send {j : σ.Job} {q : σ.Request} : (∀ s v, ¬ x.Commits s v) → jobs j →
      P.sends j q x.before.shared →
      x.after.shared = ⟨x.before.shared.db, S.send q x.before.shared.ext⟩ → Change P S jobs x
  | event {e : σ.Event} {y : σ.External} : x.action = .event e →
      S.event e x.before.shared.ext = some y → x.after.shared = ⟨x.before.shared.db, y⟩ →
      Change P S jobs x
  | single {j : σ.Job} : (∀ s v, ¬ x.Commits s v) → jobs j → S.autocommit j = true →
      P.Link x.before.shared x.after.shared → P.single x.before.shared x.after.shared →
      Change P S jobs x
  | finished {s : Session σ} {v : σ.Result} : x.Commits s v → jobs s.job →
      S.autocommit s.job = true → x.after.shared = x.before.shared → Change P S jobs x

omit [DecidableEq σ.Row] in
/-- Where no statement commits by itself, the database only changes with a commit. -/
theorem Change.together {x : Transition σ} (h : P.Change S jobs x)
    (ha : ∀ j, jobs j → S.autocommit j = false) :
    (∀ s v, ¬ x.Commits s v) ∧ x.after.shared.db = x.before.shared.db ∨
      ∃ s v, x.Commits s v ∧ jobs s.job ∧ P.post s.job v s.txn x.before.shared ∧
        P.Past s.txn x.before.shared ∧
        x.after.shared = ⟨replay s.txn.pending x.before.shared.db, x.before.shared.ext⟩ := by
  have hnot {j : σ.Job} (hj : jobs j) (hauto : S.autocommit j = true) : False := by
    rw [ha j hj] at hauto
    exact Bool.false_ne_true hauto
  cases h with
  | silent hne he => exact .inl ⟨hne, by rw [he]⟩
  | send hne _ _ he => exact .inl ⟨hne, by rw [he]⟩
  | single _ hj hauto => exact (hnot hj hauto).elim
  | finished _ hj hauto => exact (hnot hj hauto).elim
  | event hact _ he =>
    refine .inl ⟨fun s v hc => ?_, by rw [he]⟩
    cases hact.symm.trans hc.2.1
  | @commit s v hc hj _ ho hpast he => exact .inr ⟨s, v, hc, hj, ho, hpast, he⟩

/-- The step lemma in cases. -/
theorem Safe.change {w w' : World σ} {a : Action σ} (h : P.Safe S jobs w)
    (ha : w.step S a = some w') : P.Change S jobs ⟨w, a, w'⟩ := by
  have hidle : (∀ i, a ≠ .run i) → ∀ s v, ¬ Transition.Commits ⟨w, a, w'⟩ s v :=
    fun hne s v hc => hne s.id hc.2.1
  cases World.stepTo ha with
  | start | give | answer | rollback => exact .silent (hidle (by simp)) rfl
  | event hy => exact .event rfl hy rfl
  | @run s sh t hs hr =>
    have hmem := Table.mem_of_find? hs
    have hjob := h.allowed s hmem
    have hm := h.meets s hmem
    have hadv := Session.advances hr
    have hbusy (hne : ∀ v, s.prog ≠ .done v) : ∀ u v,
        ¬ Transition.Commits ⟨w, .run s.id, w.settle s.id sh t⟩ u v :=
      fun u v hc => hne v (hc.eq_of_run hs rfl ▸ hc.2.2)
    cases hadv with
    | @commit v hp =>
      have hc : Transition.Commits ⟨w, .run s.id, w.settle s.id
          ⟨replay s.txn.pending w.shared.db, w.shared.ext⟩ none⟩ s v := ⟨hs, rfl, hp⟩
      unfold Meets at hm
      split at hm
      · next hauto =>
        -- everything has been committed statement by statement
        refine .finished hc hjob hauto ?_
        rw [hm.2.1]
        rfl
      · next hauto =>
        rw [hp] at hm
        exact .commit hc hjob (Bool.eq_false_iff.mpr hauto) (hm _ (.refl h.inv)) (h.past s hmem) rfl
    | abort hp => exact .silent (hbusy (by simp [hp])) rfl
    | fail hp => exact .silent (hbusy (by simp [hp])) rfl
    | together hp hq hb ha => exact .silent (hbusy (by simp [hp])) rfl
    | single hp hq hb hauto =>
      have hne := hbusy (by simp [hp])
      simp only [Meets, hauto, if_true, hp, OkAuto, WpAuto] at hm
      obtain ⟨hok, hpend, -⟩ := hm
      rw [hpend] at hq
      obtain ⟨⟨hl, hsingle⟩, -⟩ := hok _ (.refl h.inv) _ _ hq
      exact .single hne hjob hauto hl hsingle
    | clock hp => exact .silent (hbusy (by simp [hp])) rfl
    | send hp =>
      have hne := hbusy (by simp [hp])
      unfold Meets at hm
      split at hm
      · rw [hp] at hm
        exact .send hne hjob (hm.1 _ (.refl h.inv)).1 rfl
      · rw [hp] at hm
        exact .send hne hjob (hm _ (.refl h.inv)).1 rfl

/-- The induction rule for histories: what holds at the start and is kept by every change
holds in the end. -/
theorem Valid.induction (hv : P.Valid S jobs) {start : Shared σ} (hi : P.inv start)
    {motive : List (Transition σ) → World σ → Prop} (base : motive [] (.idle start))
    (step : ∀ tr w a w', Run S start tr w → P.Safe S jobs w → P.Safe S jobs w' →
      P.Change S jobs ⟨w, a, w'⟩ → motive tr w → motive (⟨w, a, w'⟩ :: tr) w')
    {tr : List (Transition σ)} {w : World σ} (h : Run S start tr w) (hj : Starts jobs tr) :
    motive tr w := by
  induction h with
  | nil => exact base
  | @snoc tr w w' a hr hstep ih =>
    have hj' : Starts jobs tr := fun x hx => hj x (List.mem_cons_of_mem _ hx)
    have hsafe := hv.run hi hr hj'
    exact step tr w a w' hr hsafe (hv.run hi (hr.snoc hstep) hj)
      (hsafe.change hstep) (ih hj')

/-- One history's shared states are linked by allowed changes. -/
theorem Valid.leads (hv : P.Valid S jobs) {start : Shared σ} (hi : P.inv start)
    {late early : List (Transition σ)} {x : Transition σ} {w : World σ}
    (h : Run S start (late ++ x :: early) w) (hj : Starts jobs (late ++ x :: early)) :
    P.Leads x.after.shared w.shared := by
  induction late generalizing w with
  | nil => cases h; exact .refl _
  | cons y late ih =>
    cases h with
    | snoc hr hstep =>
      have hj' : Starts jobs (late ++ x :: early) :=
        fun z hz => hj z (List.mem_cons_of_mem _ hz)
      refine (ih hr hj').trans ?_
      have hs := hv.run hi hr hj'
      rcases (hs.step hv (hj _ List.mem_cons_self) hstep).2 with he | hl
      · rw [he]; exact .refl _
      · exact hl.leads

end Contract

end

end ReadCommitted
