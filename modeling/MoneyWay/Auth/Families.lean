import MoneyWay.Auth.Sessions
import MoneyWay.Library.ReadCommitted.Idents

/-!
# Families of refresh tokens

A family is one session of one user: its tokens follow each other, and at most one of them is
active. A registration or a login begins a family with an identifier of its own, and a rotation
revokes the token before it adds the next one.

## Main definitions

- `LiveSessions` — what holds of the tokens in every committed state
- `Fresh` — the identifiers of a history
- `StaysIn` — a change of one family only
-/

set_option autoImplicit false

namespace MoneyWay.Auth

open Keyed ReadCommitted Python

variable {security : Security} {unicode : Unicode}

/-- A family has a name, one user and at most one active token. -/
structure LiveSessions (d : Database) : Prop where
  named : ∀ r ∈ d.refreshTokens.rows, r.familyId ≠ ""
  owner : ∀ r ∈ d.refreshTokens.rows, ∀ r' ∈ d.refreshTokens.rows, r.familyId = r'.familyId →
    r.userId = r'.userId
  single : ∀ r ∈ d.refreshTokens.rows, ∀ r' ∈ d.refreshTokens.rows, r.familyId = r'.familyId →
    r.Active → r'.Active → r = r'

/-- The identifiers a history gives out are not empty, none is given out twice, and none is
that of a family from before. -/
structure Fresh (start : Database) (tr : List (Transition signature)) : Prop where
  nodup : (givenIdents tr).Nodup
  nonempty : "" ∉ givenIdents tr
  new : ∀ r ∈ start.refreshTokens.rows, r.familyId ∉ givenIdents tr

theorem Fresh.suffix {start : Database} {late tr : List (Transition signature)}
    (h : Fresh start (late ++ tr)) : Fresh start tr := by
  have hgiven : givenIdents (late ++ tr) = givenIdents late ++ givenIdents tr :=
    List.filterMap_append
  obtain ⟨hnodup, hnonempty, hnew⟩ := h
  rw [hgiven] at hnodup hnonempty hnew
  exact ⟨(List.nodup_append.mp hnodup).2.1, fun hmem => hnonempty (List.mem_append_right _ hmem),
    fun r hr hmem => hnew r hr (List.mem_append_right _ hmem)⟩

theorem Fresh.older {start : Database} {x : Transition signature} {tr : List (Transition signature)}
    (h : Fresh start (x :: tr)) : Fresh start tr :=
  suffix (show Fresh start ([x] ++ tr) from h)

namespace Database

variable {d : Database} {ws : List Write}

/-- A token after some writes is one of them, or was there and is not among them. -/
theorem mem_refreshTokens_replay {r : RefreshToken} (h : r ∈ (replay ws d).refreshTokens.rows) :
    r ∈ writtenTokens ws ∨
      r ∈ d.refreshTokens.rows ∧ ∀ v ∈ writtenTokens ws, v.jwtId ≠ r.jwtId := by
  rcases refreshToken_replay (Table.find?_of_mem h) with ⟨hw, -⟩ | ⟨hold, hne⟩
  · exact .inl (mem_writtenTokens.mpr hw)
  · exact .inr ⟨Table.mem_of_find? hold, fun v hv => hne v (mem_writtenTokens.mp hv)⟩

end Database

/-! ## One commit -/

/-- A new token may join the tokens: its family has no other user, and those of its tokens that
are active are revoked at the same time. -/
structure Successor (d : Database) (ws : List Write) (r : RefreshToken) : Prop where
  named : r.familyId ≠ ""
  owner : ∀ r' ∈ d.refreshTokens.rows, r'.familyId = r.familyId → r'.userId = r.userId
  alone : ∀ r' ∈ d.refreshTokens.rows, r'.familyId = r.familyId → r'.Active →
    ∃ v ∈ writtenTokens ws, v.jwtId = r'.jwtId

/-- Tokens are revoked, and at most one is added. -/
def Succeeds (d : Database) (ws : List Write) : Prop :=
  ∃ new : Option RefreshToken, (∀ r ∈ new, Successor d ws r) ∧
    ∀ v ∈ writtenTokens ws, v ∈ new ∨
      ∃ ρ now, d.refreshTokens.find? ρ.jwtId = some ρ ∧ v = ρ.revoke now

theorem LiveSessions.replay {d : Database} {ws : List Write} (h : LiveSessions d)
    (hs : Succeeds d ws) : LiveSessions (replay ws d) := by
  obtain ⟨new, hnew, hw⟩ := hs
  -- where a token comes from
  have horigin : ∀ r ∈ (ReadCommitted.replay ws d).refreshTokens.rows, r ∈ new ∨
      ∃ ρ ∈ d.refreshTokens.rows, r.familyId = ρ.familyId ∧ r.userId = ρ.userId := by
    intro r hr
    rcases Database.mem_refreshTokens_replay hr with hr | ⟨hr, -⟩
    · refine (hw r hr).imp_right ?_
      rintro ⟨ρ, now, hρ, rfl⟩
      exact ⟨ρ, Table.mem_of_find? hρ, rfl, rfl⟩
    · exact .inr ⟨r, hr, rfl, rfl⟩
  -- an active one is new, or is there already and is not revoked
  have hactive : ∀ r ∈ (ReadCommitted.replay ws d).refreshTokens.rows, r.Active → r ∈ new ∨
      r ∈ d.refreshTokens.rows ∧ ∀ v ∈ writtenTokens ws, v.jwtId ≠ r.jwtId := by
    intro r hr ha
    rcases Database.mem_refreshTokens_replay hr with hr | hr
    · refine (hw r hr).imp_right ?_
      rintro ⟨ρ, now, -, rfl⟩
      exact absurd ha (RefreshToken.not_active_revoke now ρ)
    · exact .inr hr
  have hsame {r r' : RefreshToken} (hr : r ∈ new) (hr' : r' ∈ new) : r = r' :=
    Option.mem_unique hr hr'
  refine ⟨fun r hr => ?_, fun r hr r' hr' hf => ?_, fun r hr r' hr' hf ha ha' => ?_⟩
  · rcases horigin r hr with hr | ⟨ρ, hρ, hf, -⟩
    · exact (hnew r hr).named
    · exact hf ▸ h.named ρ hρ
  · rcases horigin r hr with hr | ⟨ρ, hρ, hfρ, huρ⟩ <;>
      rcases horigin r' hr' with hr' | ⟨ρ', hρ', hfρ', huρ'⟩
    · rw [hsame hr hr']
    · rw [huρ']
      exact ((hnew r hr).owner ρ' hρ' (hfρ'.symm.trans hf.symm)).symm
    · rw [huρ]
      exact (hnew r' hr').owner ρ hρ (hfρ.symm.trans hf)
    · rw [huρ, huρ']
      exact h.owner ρ hρ ρ' hρ' (hfρ.symm.trans (hf.trans hfρ'))
  · rcases hactive r hr ha with hr | ⟨hr, hunw⟩ <;>
      rcases hactive r' hr' ha' with hr' | ⟨hr', hunw'⟩
    · exact hsame hr hr'
    · obtain ⟨v, hv, he⟩ := (hnew r hr).alone r' hr' hf.symm ha'
      exact absurd he (hunw' v hv)
    · obtain ⟨v, hv, he⟩ := (hnew r' hr').alone r hr hf ha
      exact absurd he (hunw v hv)
    · exact h.single r hr r' hr' hf ha ha'

section Commit

variable {x : Txn signature} {s : Shared signature} {j : Job}

/-- Every outcome succeeds if the identifiers of the session are those of no family. -/
theorem Outcome.succeeds (h : LiveSessions s.db) (ho : Outcome security x s j)
    (hidents : ∀ i ∈ x.idents, i ≠ "" ∧ ∀ r ∈ s.db.refreshTokens.rows, r.familyId ≠ i) :
    Succeeds s.db x.pending := by
  have hopened (ho : ∃ r, Opened x s r) : Succeeds s.db x.pending := by
    obtain ⟨r, ho⟩ := ho
    obtain ⟨hne, hno⟩ := hidents _ ho.family
    refine ⟨some r, fun r' hr' => ?_, fun v hv => .inl ?_⟩
    · cases hr'
      exact ⟨hne, fun r' hr' hf => absurd hf (hno r' hr'), fun r' hr' hf => absurd hf (hno r' hr')⟩
    · rw [ho.written, List.mem_singleton] at hv
      exact hv ▸ rfl
  cases j with
  | register | login => exact hopened ho
  | refresh settings client token =>
    obtain ⟨ρ, r, ho⟩ := ho
    obtain ⟨now, hw⟩ := ho.written
    have hρ := Table.mem_of_find? ho.row
    have hfamily : r.familyId = ρ.familyId := by
      obtain hf | ⟨hf, -⟩ := ho.family
      · exact hf
      · exact absurd hf (h.named ρ hρ)
    refine ⟨some r, fun r' hr' => ?_, fun v hv => ?_⟩
    · cases hr'
      refine ⟨hfamily ▸ h.named ρ hρ, fun r' hr' hf => ?_, fun r' hr' hf ha => ?_⟩
      · rw [ho.user]
        exact h.owner r' hr' ρ hρ (hf.trans hfamily)
      · -- the active token of the family is the one that is revoked
        obtain rfl := h.single r' hr' ρ hρ (hf.trans hfamily) ha ho.active
        exact ⟨r'.revoke now, by simp [hw], rfl⟩
    · rw [hw] at hv
      rcases List.mem_pair.mp hv with rfl | rfl
      · exact .inr ⟨ρ, now, ho.row, rfl⟩
      · exact .inl rfl
  | logout token =>
    refine ⟨none, by simp, fun v hv => .inr ?_⟩
    cases ho with
    | @revoked ρ now hrow _ _ hw =>
      rw [hw, List.mem_singleton] at hv
      exact ⟨ρ, now, hrow, hv⟩
    | unchanged _ _ hw =>
      rw [hw] at hv
      cases hv
  | detectRefreshReuse check =>
    refine ⟨none, by simp, fun v hv => .inr ?_⟩
    cases ho with
    | nothing _ hw =>
      rw [hw] at hv
      cases hv
    | reuse _ _ _ hs =>
      rw [hs.written] at hv
      obtain ⟨ρ, hρ, rfl⟩ := List.mem_map.mp hv
      exact ⟨ρ, check.now, (hs.row ρ hρ).1, rfl⟩

/-- The tokens a session writes are of families with an active token, or named by one of its
identifiers. -/
theorem Outcome.family (ho : Outcome security x s j) {r : RefreshToken}
    (hr : r ∈ writtenTokens x.pending) :
    r.familyId ∈ x.idents ∨ ∃ ρ ∈ s.db.refreshTokens.rows, ρ.Active ∧ ρ.familyId = r.familyId := by
  rcases ho.lawful r hr with hnew | ⟨ρ, now, hρ, ha, rfl⟩
  swap
  · exact .inr ⟨ρ, Table.mem_of_find? hρ, ha, rfl⟩
  have hrevoked {ρ : RefreshToken} {now : Timestamp}
      (hρ : s.db.refreshTokens.find? ρ.jwtId = some ρ) (he : r = ρ.revoke now) : False := by
    rw [he, RefreshToken.revoke_jwtId, hρ] at hnew
    cases hnew
  have hopened (ho : ∃ r, Opened x s r) : r.familyId ∈ x.idents := by
    obtain ⟨r', ho⟩ := ho
    rw [ho.written, List.mem_singleton] at hr
    exact hr ▸ ho.family
  cases j with
  | register | login => exact .inl (hopened ho)
  | refresh settings client token =>
    obtain ⟨ρ, r', ho⟩ := ho
    obtain ⟨now, hw⟩ := ho.written
    rw [hw] at hr
    rcases List.mem_pair.mp hr with he | rfl
    · exact (hrevoked ho.row he).elim
    · obtain hf | ⟨-, hf⟩ := ho.family
      · exact .inr ⟨ρ, Table.mem_of_find? ho.row, ho.active, hf.symm⟩
      · exact .inl hf
  | logout token =>
    cases ho with
    | revoked hrow _ _ hw =>
      rw [hw, List.mem_singleton] at hr
      exact (hrevoked hrow hr).elim
    | unchanged _ _ hw =>
      rw [hw] at hr
      cases hr
  | detectRefreshReuse check =>
    cases ho with
    | nothing _ hw =>
      rw [hw] at hr
      cases hr
    | reuse _ _ _ hs =>
      rw [hs.written] at hr
      obtain ⟨ρ, hρ, he⟩ := List.mem_map.mp hr
      exact (hrevoked (hs.row ρ hρ).1 he.symm).elim

end Commit

/-! ## Histories -/

section Histories

variable {start : Shared signature} {tr : List (Transition signature)} {w : World signature}

theorem starts_any (tr : List (Transition signature)) :
    Contract.Starts (fun _ : Job => True) tr := fun _ _ _ _ _ => trivial

/-- What a session commits. -/
theorem outcome_of_commits (hr : Run (service security unicode) start tr w)
    {x : Transition signature} (hx : x ∈ tr) {s : Session signature} {v : Result}
    (hc : x.Commits s v) :
    Outcome security s.txn x.before.shared s.job ∧
      (sessions security).Past s.txn x.before.shared ∧
      x.after.shared = ⟨replay s.txn.pending x.before.shared.db, x.before.shared.ext⟩ :=
  valid_sessions.commits trivial hr (starts_any tr) hx hc rfl

/-- Tokens change only as the guarantee says. -/
theorem guar_of_leads {s s' : Shared signature} (h : (sessions security).Leads s s') : Guar s s' :=
  h.lift Guar.refl (fun _ _ _ => Guar.trans) fun _ _ hg => hg

/-- Families are as they should be, and named by the start or by a session that has committed. -/
structure Families (start : Database) (tr : List (Transition signature)) (d : Database) : Prop where
  live : LiveSessions d
  known : ∀ r ∈ d.refreshTokens.rows, r.familyId ∈ spentIdents tr ∨
    ∃ r₀ ∈ start.refreshTokens.rows, r₀.familyId = r.familyId

/-- No open session has an identifier of a family. -/
theorem Families.unused (h : Families start.db tr w.shared.db) (ha : Allotted tr w)
    (hf : Fresh start.db tr) {s : Session signature} (hs : s ∈ w.sessions.rows) :
    ∀ i ∈ s.txn.idents, i ≠ "" ∧ ∀ r ∈ w.shared.db.refreshTokens.rows, r.familyId ≠ i := by
  intro i hi
  have hgiven := ha.given s hs i hi
  refine ⟨fun he => hf.nonempty (he ▸ hgiven), fun r hr he => ?_⟩
  rcases h.known r hr with hspent | ⟨r₀, hr₀, he₀⟩
  · exact ha.unspent s hs i hi (he ▸ hspent)
  · exact hf.new r₀ hr₀ (he₀.trans he ▸ hgiven)

/-- The step lemma. -/
theorem Families.step {x : Transition signature} (h : Families start.db tr x.before.shared.db)
    (ha : Allotted tr x.before) (hf : Fresh start.db tr)
    (hc : (sessions security).Change (service security unicode) (fun _ => True) x) :
    Families start.db (x :: tr) x.after.shared.db := by
  rcases hc.together fun _ _ => rfl with ⟨hno, he⟩ | ⟨s, v, hcommit, -, ho, -, he⟩
  · rw [he]
    refine ⟨h.live, fun r hr => (h.known r hr).imp_left fun hspent => ?_⟩
    rw [spentIdents_cons]
    exact List.mem_append_right _ hspent
  · have hunused := h.unused ha hf (Table.mem_of_find? hcommit.1)
    rw [he]
    refine ⟨h.live.replay (Outcome.succeeds h.live ho hunused), fun r hr => ?_⟩
    rw [spentIdents_cons, hcommit.spends]
    have hold {ρ : RefreshToken} (hρ : ρ ∈ x.before.shared.db.refreshTokens.rows) :
        ρ.familyId ∈ s.txn.idents ++ spentIdents tr ∨
          ∃ r₀ ∈ start.db.refreshTokens.rows, r₀.familyId = ρ.familyId :=
      (h.known ρ hρ).imp_left (List.mem_append_right _)
    rcases Database.mem_refreshTokens_replay hr with hw | ⟨hr, -⟩
    · rcases Outcome.family ho hw with hnew | ⟨ρ, hρ, -, hfam⟩
      · exact .inl (List.mem_append_left _ hnew)
      · exact hfam ▸ hold hρ
    · exact hold hr

/-- The run lemma. -/
theorem families_of_run (hlive : LiveSessions start.db)
    (hr : Run (service security unicode) start tr w) (hf : Fresh start.db tr) :
    Families start.db tr w.shared.db := by
  refine valid_sessions.induction (motive := fun tr w => Fresh start.db tr →
    Families start.db tr w.shared.db) trivial (fun _ => ⟨hlive, fun r hr => .inr ⟨r, hr, rfl⟩⟩)
    (fun tr w a w' hr _ _ hc ih hf => ?_) hr (starts_any tr) hf
  have hf : Fresh start.db tr := hf.older
  exact (ih hf).step (hr.allotted hf.nodup) hf hc

/-! ## Rotations -/

/-- A refresh with this token gets its pair. -/
def Rotates (token : String) (x : Transition signature) : Prop :=
  ∃ s v settings client, x.Commits s v ∧ s.job = .refresh settings client token

/-- The id of the token a refresh or a check is about. -/
def Job.presents (security : Security) : Job → Option String
  | .refresh _ _ token => (security.payload? token).map (·.jti)
  | .detectRefreshReuse check => some check.jwtId
  | _ => none

/-- The tokens that differ are of the family of token `jwtId`. -/
def StaysIn (jwtId : String) (d d' : Database) : Prop :=
  ∀ id, d'.refreshTokens.find? id ≠ d.refreshTokens.find? id →
    ∃ ρ, d.refreshTokens.find? jwtId = some ρ ∧
      ∀ r, d.refreshTokens.find? id = some r ∨ d'.refreshTokens.find? id = some r →
        r.familyId = ρ.familyId

/-- All the tokens that are written are of the family. -/
theorem StaysIn.of_written {s : Shared signature} {ws : List Write} {ρ : RefreshToken}
    {jwtId : String} (hρ : s.db.refreshTokens.find? jwtId = some ρ) (hl : Lawful s.db ws)
    (hw : ∀ v ∈ writtenTokens ws, v.familyId = ρ.familyId) :
    StaysIn jwtId s.db (replay ws s.db) := by
  intro id hne
  refine ⟨ρ, hρ, ?_⟩
  have hafter : ∀ r, (replay ws s.db).refreshTokens.find? id = some r →
      r.familyId = ρ.familyId := by
    intro r hr
    rcases Database.refreshToken_replay hr with ⟨hmem, -⟩ | ⟨hold, -⟩
    · exact hw r (mem_writtenTokens.mpr hmem)
    · exact absurd (hr.trans hold.symm) hne
  rintro r (hr | hr)
  · obtain ⟨r', hr', hb⟩ := hl.guar id r hr
    exact hb.familyId.symm.trans (hafter r' hr')
  · exact hafter r hr

/-- A token that is revoked with some writes is revoked after them. -/
theorem Lawful.revoked {s : Shared signature} {ws : List Write} {ρ : RefreshToken}
    {now : Timestamp} (hl : Lawful s.db ws) (hρ : s.db.refreshTokens.find? ρ.jwtId = some ρ)
    (hw : ρ.revoke now ∈ writtenTokens ws) :
    ∃ r, (replay ws s.db).refreshTokens.find? ρ.jwtId = some r ∧ ¬ r.Active := by
  obtain ⟨r, hr⟩ := Database.exists_refreshToken_replay ws hρ
  refine ⟨r, hr, ?_⟩
  rcases Database.refreshToken_replay hr with ⟨hmem, hid⟩ | ⟨-, hno⟩
  · -- what is written under the id of a stored token is a revocation
    rcases hl r (mem_writtenTokens.mpr hmem) with hnew | ⟨ρ', now', -, -, rfl⟩
    · rw [hid, hρ] at hnew
      cases hnew
    · exact RefreshToken.not_active_revoke now' ρ'
  · exact absurd rfl (hno (ρ.revoke now) (mem_writtenTokens.mp hw))

/-- The presented token after its rotation. -/
theorem revoked_of_rotates (hr : Run (service security unicode) start tr w)
    {x : Transition signature} (hx : x ∈ tr) {token : String} (h : Rotates token x) :
    ∃ p ρ, security.payload? token = some p ∧
      x.before.shared.db.refreshTokens.find? p.jti = some ρ ∧ ρ.Active ∧
      ∃ r, x.after.shared.db.refreshTokens.find? p.jti = some r ∧ ¬ r.Active := by
  obtain ⟨s, v, settings, client, hc, hjob⟩ := h
  obtain ⟨ho, -, he⟩ := outcome_of_commits hr hx hc
  have hlawful := ho.lawful
  rw [hjob] at ho
  obtain ⟨ρ, r, ho⟩ := ho
  obtain ⟨p, hp, hid, -⟩ := ho.presented
  obtain ⟨now, hw⟩ := ho.written
  have hmem : ρ.revoke now ∈ writtenTokens s.txn.pending := by simp [hw]
  have hrevoked := hlawful.revoked ho.row hmem
  refine ⟨p, ρ, hp, hid ▸ ho.row, ho.active, ?_⟩
  rw [he]
  exact hid ▸ hrevoked

/-- A token is rotated once. -/
theorem not_rotates_again (hr : Run (service security unicode) start tr w)
    {late early : List (Transition signature)} {x y : Transition signature}
    (htr : tr = late ++ x :: early) (hy : y ∈ early) {token : String} (hx : Rotates token x) :
    ¬ Rotates token y := by
  intro hrot
  subst htr
  obtain ⟨p, ρ, hp, hρ, ha, -⟩ := revoked_of_rotates hr (by simp) hx
  obtain ⟨hearly, -⟩ := hr.cut
  obtain ⟨p', -, hp', -, -, r, hrow, hrevoked⟩ := revoked_of_rotates hearly hy hrot
  obtain rfl : p = p' := Option.some.inj (hp.symm.trans hp')
  obtain ⟨mid, rest, rfl⟩ := List.append_of_mem hy
  -- a revoked token stays revoked
  obtain ⟨r', hrow', hb⟩ := guar_of_leads
    (valid_sessions.leads trivial hearly (starts_any _)) p.jti r hrow
  rw [hb.eq_of_revoked hrevoked, hρ] at hrow'
  exact hrevoked (Option.some.inj hrow' ▸ ha)

/-- A refresh or a check touches one family. -/
theorem staysIn_of_commits (hr : Run (service security unicode) start tr w)
    {x : Transition signature} (hx : x ∈ tr) (hlive : LiveSessions x.before.shared.db)
    {s : Session signature} {v : Result} (hc : x.Commits s v) {jwtId : String}
    (hp : s.job.presents security = some jwtId) :
    StaysIn jwtId x.before.shared.db x.after.shared.db := by
  obtain ⟨ho, hpast, he⟩ := outcome_of_commits hr hx hc
  have hlawful := ho.lawful
  rw [he]
  generalize s.job = j at ho hp
  cases j with
  | register | login | logout => cases hp
  | refresh settings client token =>
    obtain ⟨ρ, r, ho⟩ := ho
    obtain ⟨p, htoken, hid, -⟩ := ho.presented
    obtain ⟨now, hw⟩ := ho.written
    simp only [Job.presents, htoken, Option.map_some, Option.some.injEq] at hp
    refine .of_written (ρ := ρ) (by rw [← hp, ← hid, ho.row]) hlawful fun v hv => ?_
    rw [hw] at hv
    rcases List.mem_pair.mp hv with rfl | rfl
    · rfl
    · obtain hf | ⟨hf, -⟩ := ho.family
      · exact hf
      · exact absurd hf (hlive.named ρ (Table.mem_of_find? ho.row))
  | detectRefreshReuse check =>
    cases hp
    cases ho with
    | nothing _ hw =>
      have hnone : ∀ r, Write.refreshToken r ∈ s.txn.pending → False := by
        intro r hr
        rw [← mem_writtenTokens, hw] at hr
        cases hr
      exact fun id hne => absurd
        (Database.refreshToken_untouched fun r hr => (hnone r hr).elim) hne
    | @reuse ρ q rs hfinds _ _ hs =>
      -- the row that was found is still there, in the same family
      obtain ⟨q₀, hq₀, hρ, -⟩ := hfinds
      obtain ⟨ρ', hρ', hb⟩ := guar_of_leads (hpast q₀ (List.mem_of_getElem? hq₀)).2 _ ρ hρ
      refine .of_written hρ' hlawful fun v hv => ?_
      rw [hs.written] at hv
      obtain ⟨r, hr, rfl⟩ := List.mem_map.mp hv
      exact (hs.row r hr).2.2.trans hb.familyId.symm

/-- In every committed state each family has one user and at most one active token; no token is
rotated twice; and refreshes and checks of reuse change the tokens of one family only. -/
theorem families_stay_apart (hlive : LiveSessions start.db)
    (hr : Run (service security unicode) start tr w) (hf : Fresh start.db tr) :
    LiveSessions w.shared.db ∧
      tr.Pairwise (fun x y => ∀ token, Rotates token x → ¬ Rotates token y) ∧
      ∀ x ∈ tr, ∀ s v jwtId, x.Commits s v → s.job.presents security = some jwtId →
        StaysIn jwtId x.before.shared.db x.after.shared.db := by
  refine ⟨(families_of_run hlive hr hf).live, ?_, fun x hx s v jwtId hc hp => ?_⟩
  · have hpair : ∀ late early, tr = late ++ early →
        early.Pairwise fun x y => ∀ token, Rotates token x → ¬ Rotates token y := by
      intro late early
      induction early generalizing late with
      | nil => exact fun _ => .nil
      | cons x early ih =>
        intro htr
        refine .cons (fun y hy token => not_rotates_again hr htr hy) (ih (late ++ [x]) ?_)
        rw [htr, List.append_assoc]
        rfl
    exact hpair [] tr rfl
  · obtain ⟨late, early, rfl⟩ := List.append_of_mem hx
    have hbefore := families_of_run hlive hr.cut.1
      hf.suffix.older
    exact staysIn_of_commits hr hx hbefore.live hc hp

end Histories

/-! ## The operations of a job, one after the other -/

def alice : User where
  id := "alice"
  email := "alice@example.com"
  passwordHash := "secret"
  fullName := none
  bingxUid := none
  role := .user
  isActive := true
  isVerified := false
  createdAt := 0
  updatedAt := 0
  lastLoginAt := none

/-- One user, who has not logged in yet. -/
def signedUp : Shared signature where
  db := { users := (Table.empty _).put alice, refreshTokens := .empty _ }
  ext := { now := 0, checks := [] }

theorem liveSessions_signedUp : LiveSessions signedUp.db :=
  ⟨by simp [signedUp, Table.empty], by simp [signedUp, Table.empty],
    by simp [signedUp, Table.empty]⟩

/-- Tokens that are their ids; the refresh tokens are `r1` to `r3`. -/
def demo : Security where
  encode p := p.jti
  payload? token :=
    if token ∈ ["r1", "r2", "r3"] then some ⟨"alice", .refresh, token, 0, days 30⟩ else none
  timely p now := p.iat ≤ now ∧ now < p.exp
  hashToken token := token
  hashPassword _ password := password
  verifyPassword password hash := password = hash

def settings : Settings where
  accessTokenExpireMinutes := 15
  refreshTokenExpireDays := 30

def browser : Client := ⟨none, none⟩

/-- Session `i` runs `n` operations. -/
def runs (i n : ℕ) : List (Action signature) := List.replicate n (.run i)

/-- An access token and a refresh token are issued, and the row gets its id. -/
def issue (i : ℕ) (access jti id : String) : List (Action signature) :=
  .run i :: .give i access :: .run i :: .give i jti :: .run i :: [.give i id]

/-- A login that begins the family `family` with the token `r1`. -/
def logIn (i : ℕ) : List (Action signature) :=
  .start i (.login settings browser ⟨"alice@example.com", "secret"⟩) :: runs i 3 ++
    issue i "a1" "r1" "i1" ++ .give i "family" :: runs i 2

/-- A refresh, up to the `UPDATE` that revokes the token. -/
def beginRefresh (i : ℕ) (token : String) : List (Action signature) :=
  .start i (.refresh settings browser token) :: runs i 3

/-- The rest of a refresh that revokes its token. -/
def finishRefresh (i : ℕ) (access jti id : String) : List (Action signature) :=
  .run i :: issue i access jti id ++ runs i 2

/-- The check of a reused token, with `n` tokens of its family to revoke. -/
def checkReuse (i : ℕ) (token : String) (n : ℕ) : List (Action signature) :=
  .start i (.detectRefreshReuse ⟨token, token, "alice", 0⟩) :: runs i (2 + n) ++ [.run i]

/-- The ids of the tokens that are active. -/
def activeTokens (w : World signature) : List String :=
  (w.shared.db.refreshTokens.rows.filter fun r => r.Active).map (·.jwtId)

/-- The token is refreshed and comes again, and the check ends its family. -/
theorem families_stay_apart_reused : ∃ tr w, Run (service demo .ascii) signedUp tr w ∧
    activeTokens w = [] ∧ LiveSessions w.shared.db ∧
      tr.Pairwise (fun x y => ∀ token, Rotates token x → ¬ Rotates token y) := by
  obtain ⟨tr, w, hr, -, hw⟩ := Run.exists_of_trace (service demo .ascii) signedUp
    (logIn 0 ++ beginRefresh 1 "r1" ++ finishRefresh 1 "a2" "r2" "i2" ++ beginRefresh 2 "r1" ++
      .run 2 :: checkReuse 3 "r1" 1) (fun r => (givenIdents r.1, activeTokens r.2))
    (b := (["i2", "r2", "a2", "family", "i1", "r1", "a1"], [])) (by decide)
  obtain ⟨hgiven, hactive⟩ := Prod.mk.inj hw
  have hfresh : Fresh signedUp.db tr :=
    ⟨by rw [hgiven]; decide, by rw [hgiven]; decide, by simp [signedUp, Table.empty]⟩
  obtain ⟨hlive, hpair, -⟩ := families_stay_apart liveSessions_signedUp hr hfresh
  exact ⟨tr, w, hr, hactive, hlive, hpair⟩

end MoneyWay.Auth
