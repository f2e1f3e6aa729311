import MoneyWay.Auth.Families

/-!
# The end of a session

A family without an active token has ended: no refresh gets a pair for one of its tokens, and
none of them becomes active again. A check that has found a reused token ends the family, but
for the tokens that its `UPDATE` has not seen; a logout ends it if the token that is presented
is the newest one.

## Main definitions

- `Ended`, `Continues` — no token of a family is active; a refresh gets the next one
- `EndsFamily` — what a check is for
- `EndsSession` — what a logout is for
-/

set_option autoImplicit false

namespace MoneyWay.Auth

open Keyed ReadCommitted Python

variable {security : Security} {unicode : Unicode} {start : Shared signature}
  {tr : List (Transition signature)} {w : World signature} {familyId : String}

/-- No token of the family is active. -/
def Ended (familyId : String) (d : Database) : Prop :=
  ∀ r ∈ d.refreshTokens.rows, r.familyId = familyId → ¬ r.Active

/-- A refresh with a token of the family gets its pair. -/
def Continues (security : Security) (familyId : String) (x : Transition signature) : Prop :=
  ∃ token p ρ, Rotates token x ∧ security.payload? token = some p ∧
    x.before.shared.db.refreshTokens.find? p.jti = some ρ ∧ ρ.familyId = familyId

/-- The family has tokens. -/
def Known (familyId : String) (d : Database) : Prop :=
  ∃ r ∈ d.refreshTokens.rows, r.familyId = familyId

theorem Known.guar {s s' : Shared signature} (h : Known familyId s.db) (hg : Guar s s') :
    Known familyId s'.db := by
  obtain ⟨r, hr, hf⟩ := h
  obtain ⟨r', hr', hb⟩ := hg _ r (Table.find?_of_mem hr)
  exact ⟨r', Table.mem_of_find? hr', hb.familyId.trans hf⟩

theorem Ended.not_continues (hr : Run (service security unicode) start tr w)
    {x : Transition signature} (hx : x ∈ tr) (h : Ended familyId x.before.shared.db) :
    ¬ Continues security familyId x := by
  rintro ⟨token, p, ρ, hrot, hp, hρ, hf⟩
  obtain ⟨p', ρ', hp', hρ', ha, -⟩ := revoked_of_rotates hr hx hrot
  obtain rfl : p = p' := Option.some.inj (hp.symm.trans hp')
  obtain rfl : ρ = ρ' := Option.some.inj (hρ.symm.trans hρ')
  exact h ρ (Table.mem_of_find? hρ) hf ha

/-- The step lemma: a token is only added to a family that is new or has an active token. -/
theorem Ended.step {x : Transition signature} (h : Ended familyId x.before.shared.db)
    (hk : Known familyId x.before.shared.db) (hfam : Families start.db tr x.before.shared.db)
    (ha : Allotted tr x.before) (hf : Fresh start.db tr)
    (hc : (sessions security).Change (service security unicode) (fun _ => True) x) :
    Ended familyId x.after.shared.db := by
  rcases hc.together fun _ _ => rfl with ⟨-, he⟩ | ⟨s, v, hcommit, -, ho, -, he⟩
  · rw [he]
    exact h
  · rw [he]
    intro r hr hfamily hactive
    rcases Database.mem_refreshTokens_replay hr with hw | ⟨hold, -⟩
    · rcases Outcome.family ho hw with hnew | ⟨ρ, hρ, haρ, hfρ⟩
      · obtain ⟨r₀, hr₀, hf₀⟩ := hk
        exact (hfam.unused ha hf (Table.mem_of_find? hcommit.1) _ hnew).2 r₀ hr₀
          (hf₀.trans hfamily.symm)
      · exact h ρ hρ (hfρ.trans hfamily) haρ
    · exact h r hold hfamily hactive

/-- The run lemma. -/
theorem Ended.run (hlive : LiveSessions start.db) {late early : List (Transition signature)}
    {x : Transition signature} (hr : Run (service security unicode) start (late ++ x :: early) w)
    (hf : Fresh start.db (late ++ x :: early)) (h : Ended familyId x.after.shared.db)
    (hk : Known familyId x.after.shared.db) :
    (Ended familyId w.shared.db ∧ Known familyId w.shared.db) ∧
      ∀ y ∈ late, ¬ Continues security familyId y := by
  induction late generalizing w with
  | nil =>
    cases hr
    exact ⟨⟨h, hk⟩, by simp⟩
  | cons y late ih =>
    have hall := hr
    cases hr with
    | @snoc _ w₁ _ a hr hstep =>
      have hf : Fresh start.db (late ++ x :: early) := hf.older
      obtain ⟨⟨hend, hknown⟩, hno⟩ := ih hr hf
      have hsafe := valid_sessions.run trivial hr (starts_any _)
      refine ⟨⟨hend.step hknown (families_of_run hlive hr hf) (hr.allotted hf.nodup) hf
        (hsafe.change hstep), ?_⟩, fun z hz => ?_⟩
      · rcases (hsafe.step valid_sessions (fun _ _ _ => trivial) hstep).2 with he | hl
        · rw [he]
          exact hknown
        · exact hknown.guar hl.guar
      · rcases List.mem_cons.mp hz with rfl | hz
        · exact hend.not_continues hall (by simp)
        · exact hno z hz

/-! ## A reused token -/

/-- What is to hold after `x`: once every refresh in flight has finished, no token of the
family is active, and no later refresh gets a pair for one of them. -/
def EndsFamily (security : Security) (unicode : Unicode) (start : Shared signature)
    (early : List (Transition signature)) (x : Transition signature) (familyId : String) : Prop :=
  ∀ late w, Run (service security unicode) start (late ++ x :: early) w →
    Fresh start.db (late ++ x :: early) →
    (∀ t ∈ x.after.sessions.rows, ∀ settings client token, t.job = .refresh settings client token →
      ∃ y ∈ late, y.Closes t.id) →
    Ended familyId w.shared.db ∧
      ∀ later w', Run (service security unicode) start (later ++ (late ++ x :: early)) w' →
        Fresh start.db (later ++ (late ++ x :: early)) →
        ∀ y ∈ later, ¬ Continues security familyId y

/-- The active tokens of the family were stored when the second statement of the session, the
`UPDATE` of the family, started. -/
def SeesFamily (s : Session signature) (familyId : String) (d : Database) : Prop :=
  ∀ q, s.txn.snapshots[1]? = some q → ∀ r ∈ d.refreshTokens.rows, r.familyId = familyId →
    r.Active → (q.db.refreshTokens.find? r.jwtId).isSome = true

/-- The commit of a check that has found a revoked token. -/
theorem Checked.ended_iff {s : Session signature} {sh : Shared signature} {check : ReuseCheck}
    {ρ : RefreshToken} (h : Checked s.txn sh check) (hfinds : check.Finds s.txn ρ)
    (hrevoked : ¬ ρ.Active) (hpast : (sessions security).Past s.txn sh) :
    Ended ρ.familyId (replay s.txn.pending sh.db) ↔ SeesFamily s ρ.familyId sh.db := by
  cases h with
  | nothing hno _ => exact absurd (hno ρ hfinds) hrevoked
  | @reuse ρ' q rs hfinds' _ hq hs =>
    obtain rfl : ρ = ρ' := by
      obtain ⟨q₀, hq₀, hρ, -⟩ := hfinds
      obtain ⟨q₁, hq₁, hρ', -⟩ := hfinds'
      rw [hq₀] at hq₁
      cases hq₁
      exact Option.some.inj (hρ.symm.trans hρ')
    have hsince : Guar q sh := guar_of_leads (hpast q (List.mem_of_getElem? hq)).2
    constructor
    · intro hend q' hq' r hr hf ha
      obtain rfl : q = q' := Option.some.inj (hq.symm.trans hq')
      by_contra hnot
      -- what the `UPDATE` has not seen is not written, and stays active
      have hsame : (replay s.txn.pending sh.db).refreshTokens.find? r.jwtId =
          sh.db.refreshTokens.find? r.jwtId :=
        Database.refreshToken_untouched fun v hv he => by
          rw [← mem_writtenTokens, hs.written] at hv
          obtain ⟨r', hr', rfl⟩ := List.mem_map.mp hv
          rw [RefreshToken.revoke_jwtId] at he
          exact hnot (he ▸ hs.seen r' hr')
      rw [Table.find?_of_mem hr] at hsame
      exact hend r (Table.mem_of_find? hsame) hf ha
    · intro hsees r hr hf ha
      rcases Database.mem_refreshTokens_replay hr with hw | ⟨hold, hunwritten⟩
      · rw [hs.written] at hw
        obtain ⟨r', -, rfl⟩ := List.mem_map.mp hw
        exact RefreshToken.not_active_revoke _ r' ha
      · obtain ⟨r₀, hr₀⟩ := Option.isSome_iff_exists.mp (hsees q hq r hold hf ha)
        obtain ⟨r', hr', hb⟩ := hsince _ r₀ hr₀
        rw [Table.find?_of_mem hold] at hr'
        cases hr'
        -- a token that is active has been active
        obtain rfl := hb.eq_of_active ha
        rcases hs.complete r (Table.mem_of_find? hr₀) ha hf with ⟨r', hr', he⟩ | ⟨r', hr', hna⟩
        · refine hunwritten (r'.revoke check.now) ?_ he
          rw [hs.written]
          exact List.mem_map_of_mem hr'
        · rw [Table.find?_of_mem hold] at hr'
          cases hr'
          exact hna ha

/-- A check that has found a revoked token ends the family if and only if no token of it that is
active then has been committed after the `UPDATE` of the family had started. -/
theorem check_ends_family_iff (hlive : LiveSessions start.db)
    {early : List (Transition signature)} {x : Transition signature}
    (hr : Run (service security unicode) start (x :: early) w)
    (hf : Fresh start.db (x :: early)) {s : Session signature} {v : Result}
    (hc : x.Commits s v) {check : ReuseCheck} (hjob : s.job = .detectRefreshReuse check)
    {ρ : RefreshToken} (hfinds : check.Finds s.txn ρ) (hrevoked : ¬ ρ.Active) :
    EndsFamily security unicode start early x ρ.familyId ↔
      SeesFamily s ρ.familyId x.before.shared.db := by
  obtain ⟨ho, hpast, he⟩ := outcome_of_commits hr List.mem_cons_self hc
  have hguar : Guar x.before.shared x.after.shared := he ▸ ho.lawful.guar
  rw [hjob] at ho
  have hiff := Checked.ended_iff ho hfinds hrevoked hpast
  have hended :
      Ended ρ.familyId x.after.shared.db ↔ SeesFamily s ρ.familyId x.before.shared.db := by
    rw [he]
    exact hiff
  have hknown : Known ρ.familyId x.after.shared.db := by
    obtain ⟨q₀, hq₀, hρ, -⟩ := hfinds
    have hthen : Known ρ.familyId q₀.db := ⟨ρ, Table.mem_of_find? hρ, rfl⟩
    exact (hthen.guar (guar_of_leads (hpast q₀ (List.mem_of_getElem? hq₀)).2)).guar hguar
  rw [← hended]
  constructor
  · -- the open sessions can be rolled back
    intro hends
    obtain ⟨late, w', hr', hshared, -, hback, hclosed⟩ := hr.exists_rolledBack
    have hsilent : givenIdents (late ++ x :: early) = givenIdents (x :: early) := by
      have hnone : givenIdents late = [] := by
        refine List.filterMap_eq_nil_iff.mpr fun y hy => ?_
        obtain ⟨i, hi⟩ := hback y hy
        rw [hi]
        rfl
      rw [givenIdents, List.filterMap_append]
      simpa [givenIdents] using hnone
    have hf' : Fresh start.db (late ++ x :: early) :=
      ⟨hsilent ▸ hf.nodup, hsilent ▸ hf.nonempty, hsilent ▸ hf.new⟩
    cases hr
    have hend := (hends late w' hr' hf' fun t ht _ _ _ _ => hclosed t ht).1
    rwa [hshared] at hend
  · intro hend late w' hr' hf' _
    have hrun := Ended.run hlive hr' hf' hend hknown
    refine ⟨hrun.1.1, fun later w'' hr'' hf'' y hy => ?_⟩
    rw [← List.append_assoc] at hr'' hf''
    exact (Ended.run hlive hr'' hf'' hend hknown).2 y (List.mem_append_left _ hy)

instance (familyId : String) (d : Database) : Decidable (Ended familyId d) :=
  inferInstanceAs (Decidable (∀ r ∈ d.refreshTokens.rows, _ → ¬ _))

instance (s : Session signature) (familyId : String) (d : Database) :
    Decidable (SeesFamily s familyId d) :=
  match h : s.txn.snapshots[1]? with
  | none => isTrue fun q hq => by rw [h] at hq; cases hq
  | some q =>
    decidable_of_iff (∀ r ∈ d.refreshTokens.rows, r.familyId = familyId → r.Active →
        (q.db.refreshTokens.find? r.jwtId).isSome = true)
      ⟨fun hd q' hq' => by rw [h] at hq'; cases hq'; exact hd, fun hs => hs q h⟩

/-- The check a job is. -/
def Job.check? : Job → Option ReuseCheck
  | .detectRefreshReuse check => some check
  | _ => none

theorem Job.eq_of_check? {j : Job} {check : ReuseCheck} (h : j.check? = some check) :
    j = .detectRefreshReuse check := by
  cases j <;> cases h
  rfl

/-- A history of the demo with one of its commits, by what can be decided of the transitions
after it and of the commit itself. -/
theorem exists_commit (as : List (Action signature)) (n : ℕ)
    (f : List (Transition signature) → Bool) (g : Transition signature → Session signature → Bool)
    (ids : List String) (h : ((World.idle signedUp).trace (service demo .ascii) [] as).map (fun r =>
      (givenIdents r.1, f (r.1.take n), r.1[n]?.bind fun x => x.commit?.map (g x))) =
        some (ids, true, some true)) (hids : ids.Nodup ∧ "" ∉ ids) :
    ∃ late x early s v w, Run (service demo .ascii) signedUp (late ++ x :: early) w ∧
      Fresh signedUp.db (late ++ x :: early) ∧ late.length = n ∧ f late = true ∧ x.Commits s v ∧
      g x s = true := by
  obtain ⟨tr, w, hr, -, hobs⟩ := Run.exists_of_trace (service demo .ascii) signedUp as _ h
  simp only [Prod.mk.injEq] at hobs
  obtain ⟨hgiven, hf, hx⟩ := hobs
  obtain ⟨x, hget, hx⟩ := Option.bind_eq_some_iff.mp hx
  obtain ⟨s, hs, hg⟩ := Option.map_eq_some_iff.mp hx
  obtain ⟨v, hc⟩ := Transition.commits_of_commit? hs
  obtain ⟨hn, rfl⟩ := List.getElem?_eq_some_iff.mp hget
  have hsplit : tr.take n ++ tr[n] :: tr.drop (n + 1) = tr := by simp
  have hfresh : Fresh signedUp.db tr :=
    ⟨hgiven ▸ hids.1, hgiven ▸ hids.2, by simp [signedUp, Table.empty]⟩
  rw [← hsplit] at hr hfresh
  exact ⟨_, _, _, s, v, w, hr, hfresh, by simp; omega, hf, hc, hg⟩

/-- The first token of the family, once it has been rotated. -/
def rotated : RefreshToken where
  id := "i1"
  userId := "alice"
  jwtId := "r1"
  tokenHash := "r1"
  familyId := "family"
  expiresAt := days 30
  revokedAt := some 0
  createdByIp := none
  userAgent := none
  createdAt := 0
  updatedAt := 0

/-- A token is rotated and comes again. -/
def rotate : List (Action signature) :=
  logIn 0 ++ beginRefresh 1 "r1" ++ finishRefresh 1 "a2" "r2" "i2"

/-- The check of `r1`. -/
def reuse : ReuseCheck := ⟨"r1", "r1", "alice", 0⟩

/-- The session is the check of `r1`, and its first statement has found `rotated`. -/
def Rechecks (s : Session signature) : Prop :=
  s.job.check? = some reuse ∧
    (s.txn.snapshots[0]?.bind fun q => q.db.refreshTokens.find? "r1") = some rotated

instance (s : Session signature) : Decidable (Rechecks s) := inferInstanceAs (Decidable (_ ∧ _))

theorem Rechecks.finds {s : Session signature} (h : Rechecks s) : reuse.Finds s.txn rotated := by
  obtain ⟨q, hq, hrow⟩ := Option.bind_eq_some_iff.mp h.2
  exact ⟨q, hq, hrow, rfl, rfl⟩

/-- The check comes after the rotation. -/
theorem check_ends_family_iff_reused : ∃ early x w, Run (service demo .ascii) signedUp
    (x :: early) w ∧ EndsFamily demo .ascii signedUp early x "family" := by
  obtain ⟨late, x, early, s, v, w, hr, hf, hlen, -, hc, hobs⟩ := exists_commit
    (rotate ++ checkReuse 3 "r1" 1) 0 (fun _ => true)
    (fun x s => Rechecks s ∧ SeesFamily s "family" x.before.shared.db)
    ["i2", "r2", "a2", "family", "i1", "r1", "a1"] (by decide) (by decide)
  obtain rfl := List.length_eq_zero_iff.mp hlen
  obtain ⟨hcheck, hsees⟩ := of_decide_eq_true hobs
  exact ⟨early, x, w, hr, (check_ends_family_iff liveSessions_signedUp hr hf hc
    (Job.eq_of_check? hcheck.1) hcheck.finds (by decide)).mpr hsees⟩

/-- The next rotation commits while the `UPDATE` of the family waits for the token it has
revoked: the new token stays active. -/
theorem not_check_ends_family : ¬ ∀ (security : Security) (unicode : Unicode)
    (start : Shared signature) (early : List (Transition signature)) (x : Transition signature)
    (w : World signature) (s : Session signature) (v : Result) (check : ReuseCheck)
    (ρ : RefreshToken), LiveSessions start.db →
      Run (service security unicode) start (x :: early) w → Fresh start.db (x :: early) →
      x.Commits s v → s.job = .detectRefreshReuse check → check.Finds s.txn ρ → ¬ ρ.Active →
      EndsFamily security unicode start early x ρ.familyId := by
  intro h
  obtain ⟨late, x, early, s, v, w, hr, hf, hlen, -, hc, hobs⟩ := exists_commit
    (rotate ++ beginRefresh 2 "r2" ++ .start 3 (.detectRefreshReuse reuse) :: runs 3 2 ++
      finishRefresh 2 "a3" "r3" "i3" ++ runs 3 2) 0 (fun _ => true)
    (fun x s => Rechecks s ∧ ¬ Ended "family" x.after.shared.db ∧
      x.after.sessions.rows.isEmpty = true)
    ["i3", "r3", "a3", "i2", "r2", "a2", "family", "i1", "r1", "a1"] (by decide)
    (by decide)
  obtain rfl := List.length_eq_zero_iff.mp hlen
  obtain ⟨hcheck, hactive, hidle⟩ := of_decide_eq_true hobs
  have hends := h demo .ascii signedUp early x w s v reuse rotated liveSessions_signedUp hr hf hc
    (Job.eq_of_check? hcheck.1) hcheck.finds (by decide)
  have hlast : w = x.after := by
    cases hr
    rfl
  refine hactive (hlast ▸ (hends [] w hr hf fun t ht => ?_).1)
  rw [List.isEmpty_iff.mp hidle] at ht
  cases ht

/-! ## Logout -/

/-- What is to hold after `x`: no refresh gets a pair for a token of the family. -/
def EndsSession (security : Security) (unicode : Unicode) (start : Shared signature)
    (early : List (Transition signature)) (x : Transition signature) (familyId : String) : Prop :=
  ∀ late w, Run (service security unicode) start (late ++ x :: early) w →
    Fresh start.db (late ++ x :: early) → ∀ y ∈ late, ¬ Continues security familyId y

/-- No token of the family of `ρ` but `ρ` itself is active. -/
def Newest (ρ : RefreshToken) (d : Database) : Prop :=
  ∀ r ∈ d.refreshTokens.rows, r.familyId = ρ.familyId → r.Active → r.jwtId = ρ.jwtId

/-- The row of the token, as the first statement of the session has found it. -/
def Presented (security : Security) (s : Session signature) (token : String) (ρ : RefreshToken) :
    Prop :=
  ∃ q, s.txn.snapshots[0]? = some q ∧ q.db.refreshTokens.find? ρ.jwtId = some ρ ∧
    ρ.Of security token

/-- The commit of a logout. -/
theorem LoggedOut.ended_iff {s : Session signature} {sh : Shared signature} {token : String}
    {ρ : RefreshToken} (h : LoggedOut security s.txn sh token)
    (hrow : Presented security s token ρ) (hpast : (sessions security).Past s.txn sh) :
    Ended ρ.familyId (replay s.txn.pending sh.db) ↔ Newest ρ sh.db := by
  obtain ⟨q, hq, hρ, hof⟩ := hrow
  obtain ⟨ρ', hρ', hb⟩ := guar_of_leads (hpast q (List.mem_of_getElem? hq)).2 _ ρ hρ
  -- what the logout writes, if anything, is the row of the token
  have hwritten : ∀ v ∈ writtenTokens s.txn.pending, v.jwtId = ρ.jwtId := by
    intro v hv
    cases h with
    | revoked _ hof' _ hw =>
      rw [hw, List.mem_singleton] at hv
      obtain ⟨p, hp, hid, -⟩ := hof
      obtain ⟨p', hp', hid', -⟩ := hof'
      obtain rfl : p = p' := Option.some.inj (hp.symm.trans hp')
      rw [hv, RefreshToken.revoke_jwtId, hid', hid]
    | unchanged _ _ hw =>
      rw [hw] at hv
      cases hv
  constructor
  · intro hend r hr hf ha
    by_contra hne
    have hsame : (replay s.txn.pending sh.db).refreshTokens.find? r.jwtId =
        sh.db.refreshTokens.find? r.jwtId :=
      Database.refreshToken_untouched fun v hv he =>
        hne (he.symm.trans (hwritten v (mem_writtenTokens.mpr hv)))
    rw [Table.find?_of_mem hr] at hsame
    exact hend r (Table.mem_of_find? hsame) hf ha
  · intro hnew r hr hf ha
    rcases Database.mem_refreshTokens_replay hr with hw | ⟨hold, hunwritten⟩
    · cases h with
      | @revoked ρ'' now _ _ _ hw' =>
        rw [hw', List.mem_singleton] at hw
        exact RefreshToken.not_active_revoke now ρ'' (hw ▸ ha)
      | unchanged _ _ hw' =>
        rw [hw'] at hw
        cases hw
    · -- the active token can only be the one that was presented
      have hid := hnew r hold hf ha
      rw [← hid, Table.find?_of_mem hold] at hρ'
      cases hρ'
      cases h with
      | @revoked ρ'' now _ _ _ hw =>
        have hmem : ρ''.revoke now ∈ writtenTokens s.txn.pending := by simp [hw]
        exact hunwritten _ hmem ((hwritten _ hmem).trans hid.symm)
      | unchanged hq' hno _ =>
        obtain rfl := Option.some.inj (hq.symm.trans hq')
        exact hno ρ hρ hof (hb.eq_of_active ha ▸ ha)

/-- A logout ends the family if and only if the token is the newest one of its session, and
then no refresh gets a pair for a token of the family in any history that goes on from there. -/
theorem logout_ends_session (hlive : LiveSessions start.db)
    {early : List (Transition signature)} {x : Transition signature}
    (hr : Run (service security unicode) start (x :: early) w) {s : Session signature} {v : Result}
    (hc : x.Commits s v) {token : String} (hjob : s.job = .logout token)
    {ρ : RefreshToken} (hrow : Presented security s token ρ) :
    (Ended ρ.familyId x.after.shared.db ↔ Newest ρ x.before.shared.db) ∧
      (Newest ρ x.before.shared.db →
        EndsSession security unicode start early x ρ.familyId) := by
  obtain ⟨ho, hpast, he⟩ := outcome_of_commits hr List.mem_cons_self hc
  have hguar : Guar x.before.shared x.after.shared := he ▸ ho.lawful.guar
  rw [hjob] at ho
  have hiff : Ended ρ.familyId x.after.shared.db ↔ Newest ρ x.before.shared.db := by
    rw [he]
    exact LoggedOut.ended_iff ho hrow hpast
  refine ⟨hiff, fun hnew late w' hr' hf' y hy => ?_⟩
  have hknown : Known ρ.familyId x.after.shared.db := by
    obtain ⟨q, hq, hρ, -⟩ := hrow
    have hthen : Known ρ.familyId q.db := ⟨ρ, Table.mem_of_find? hρ, rfl⟩
    exact (hthen.guar (guar_of_leads (hpast q (List.mem_of_getElem? hq)).2)).guar hguar
  exact (Ended.run hlive hr' hf' (hiff.mpr hnew) hknown).2 y hy

instance (ρ : RefreshToken) (d : Database) : Decidable (Newest ρ d) :=
  inferInstanceAs (Decidable (∀ r ∈ d.refreshTokens.rows, _ → _ → _))

/-- The token of a logout. -/
def Job.logout? : Job → Option String
  | .logout token => some token
  | _ => none

theorem Job.eq_of_logout? {j : Job} {token : String} (h : j.logout? = some token) :
    j = .logout token := by
  cases j <;> cases h
  rfl

/-- The session is the logout with `r1`, and has found the row `ρ`. -/
def LogsOut (ρ : RefreshToken) (s : Session signature) : Prop :=
  s.job.logout? = some "r1" ∧
    (s.txn.snapshots[0]?.bind fun q => q.db.refreshTokens.find? "r1") = some ρ

instance (ρ : RefreshToken) (s : Session signature) : Decidable (LogsOut ρ s) :=
  inferInstanceAs (Decidable (_ ∧ _))

theorem LogsOut.presented {ρ : RefreshToken} {s : Session signature} (h : LogsOut ρ s)
    (hρ : ρ.jwtId = "r1" ∧ ρ.tokenHash = "r1" ∧ ρ.userId = "alice") :
    Presented demo s "r1" ρ := by
  obtain ⟨q, hq, hrow⟩ := Option.bind_eq_some_iff.mp h.2
  exact ⟨q, hq, hρ.1 ▸ hrow, ⟨"alice", .refresh, "r1", 0, days 30⟩, rfl, hρ⟩

/-- The logout with `r1`. -/
def logOut (i : ℕ) : List (Action signature) := .start i (.logout "r1") :: runs i 4

/-- The logout comes before any rotation. -/
theorem logout_ends_session_newest : ∃ early x w, Run (service demo .ascii) signedUp
    (x :: early) w ∧ EndsSession demo .ascii signedUp early x "family" := by
  obtain ⟨late, x, early, s, v, w, hr, -, hlen, -, hc, hobs⟩ := exists_commit
    (logIn 0 ++ logOut 1) 0 (fun _ => true)
    (fun x s => LogsOut { rotated with revokedAt := none } s ∧
      Newest { rotated with revokedAt := none } x.before.shared.db)
    ["family", "i1", "r1", "a1"] (by decide) (by decide)
  obtain rfl := List.length_eq_zero_iff.mp hlen
  obtain ⟨hlogout, hnew⟩ := of_decide_eq_true hobs
  exact ⟨early, x, w, hr, (logout_ends_session liveSessions_signedUp hr hc
    (Job.eq_of_logout? hlogout.1) (hlogout.presented ⟨rfl, rfl, rfl⟩)).2 hnew⟩

/-- The token of a refresh. -/
def Job.refresh? : Job → Option String
  | .refresh _ _ token => some token
  | _ => none

theorem rotates_of_commit? {x : Transition signature} {s : Session signature} {token : String}
    (hs : x.commit? = some s) (h : s.job.refresh? = some token) : Rotates token x := by
  obtain ⟨v, hc⟩ := Transition.commits_of_commit? hs
  cases hj : s.job <;> rw [hj] at h <;> cases h
  exact ⟨s, v, _, _, hc, hj⟩

/-- The logout comes with the token from before a rotation: the session goes on. -/
theorem not_logout_ends_session : ¬ ∀ (security : Security) (unicode : Unicode)
    (start : Shared signature) (early : List (Transition signature)) (x : Transition signature)
    (w : World signature) (s : Session signature) (v : Result) (token : String)
    (ρ : RefreshToken), LiveSessions start.db →
      Run (service security unicode) start (x :: early) w → x.Commits s v →
      s.job = .logout token → Presented security s token ρ →
      EndsSession security unicode start early x ρ.familyId := by
  intro h
  obtain ⟨late, x, early, s, v, w, hr, hf, -, hlate, hc, hobs⟩ := exists_commit
    (rotate ++ logOut 2 ++ beginRefresh 3 "r2" ++ finishRefresh 3 "a3" "r3" "i3") 13
    (fun late => late.head?.any fun y => y.commit?.any fun t => t.job.refresh? = some "r2" ∧
      (y.before.shared.db.refreshTokens.find? "r2").any fun r => r.familyId = "family")
    (fun x s => LogsOut rotated s)
    ["i3", "r3", "a3", "i2", "r2", "a2", "family", "i1", "r1", "a1"] (by decide)
    (by decide)
  have hends := h demo .ascii signedUp early x x.after s v "r1" rotated liveSessions_signedUp
    (hr.cut.1.snoc hr.cut.2) hc (Job.eq_of_logout? (of_decide_eq_true hobs).1)
    ((of_decide_eq_true hobs).presented ⟨rfl, rfl, rfl⟩)
  -- the refresh that comes last
  obtain ⟨y, hy, hlate⟩ := (Option.any_eq_true ..).mp hlate
  obtain ⟨t, ht, hlate⟩ := (Option.any_eq_true ..).mp hlate
  obtain ⟨hjob, hrow⟩ := of_decide_eq_true hlate
  obtain ⟨r, hr', hfamily⟩ := (Option.any_eq_true ..).mp hrow
  exact hends late w hr hf y (List.mem_of_head? hy) ⟨"r2", ⟨"alice", .refresh, "r2", 0, days 30⟩, r,
    rotates_of_commit? ht hjob, rfl, hr', of_decide_eq_true hfamily⟩

end MoneyWay.Auth
