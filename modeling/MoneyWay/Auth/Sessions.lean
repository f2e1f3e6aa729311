import MoneyWay.Auth.Outcomes

/-!
# Sessions of the authentication

Every request, and every detection of reuse, commits one of its outcomes. A token that has
been written is locked to the end, so it is what it was when the session commits.
-/

set_option autoImplicit false

namespace MoneyWay.Auth

open Keyed ReadCommitted Python Prog

variable {security : Security} {unicode : Unicode} {j : Job} {x : Txn signature}
  {s s' s'' : Shared signature} {held : List (Row × LockMode)}

section Later

variable (h : (sessions security).Later held s s')

include h

theorem later_refreshToken {id : String} (hm : (.refreshToken id, .noKeyUpdate) ∈ held) :
    s'.db.refreshTokens.find? id = s.db.refreshTokens.find? id :=
  Database.row_refreshToken (h.rows _ _ hm rfl)

theorem later_guar : Guar s s' :=
  h.leads.lift Guar.refl (fun _ _ _ => Guar.trans) fun _ _ hg => hg

end Later

namespace Sql

variable {d : Database} {blocked : Row → LockMode → Bool}

theorem insertUser_ok {u : User} {eff : Effect Write Row (Option User)}
    (h : insertUser u blocked d = .ok eff) : writtenTokens eff.writes = [] := by
  unfold insertUser at h
  split at h <;> cases h <;> rfl

theorem updateLastLogin_ok {id : String} {now : Timestamp} {eff : Effect Write Row (Option User)}
    (h : updateLastLogin id now blocked d = .ok eff) : writtenTokens eff.writes = [] := by
  unfold updateLastLogin at h
  split at h <;> cases h <;> rfl

theorem insertRefreshToken_ok {r : RefreshToken} {eff : Effect Write Row Unit}
    (h : insertRefreshToken r blocked d = .ok eff) :
    d.refreshTokens.find? r.jwtId = none ∧
      eff = {
        value := (), writes := [.refreshToken r], locks := [(.user r.userId, .keyShare)] } := by
  unfold insertRefreshToken at h
  split at h
  · cases h
  · next hnew =>
    split at h
    · cases h
    · cases h
      simp only [Bool.or_eq_true, not_or, Bool.not_eq_true, Option.isSome_eq_false_iff,
        Option.isNone_iff_eq_none] at hnew
      exact ⟨hnew.1, rfl⟩

/-- The row is the one that was asked for and is revoked, or there is no such row. -/
theorem updateRefreshToken_ok {jwtId tokenHash userId : String} {now : Timestamp}
    {condition : RefreshToken → Bool} {eff : Effect Write Row (Option String)}
    (h : updateRefreshToken jwtId tokenHash userId now condition blocked d = .ok eff) :
    (∃ r, d.refreshTokens.find? jwtId = some r ∧ r.tokenHash = tokenHash ∧ r.userId = userId ∧
      r.Active ∧ eff = { value := some r.familyId, writes := [.refreshToken (r.revoke now)] }) ∨
    (∀ r, d.refreshTokens.find? jwtId = some r → r.tokenHash = tokenHash → r.userId = userId →
      condition r = true → ¬ r.Active) ∧ eff = { value := none } := by
  unfold updateRefreshToken at h
  split at h
  · next hnone =>
    cases h
    exact .inr ⟨fun r hr => by simp [hnone] at hr, rfl⟩
  · next r hr =>
    split at h
    · next hc =>
      cases h
      exact .inl ⟨r, hr, hc.1, hc.2.1, hc.2.2.1, rfl⟩
    · next hc =>
      cases h
      refine .inr ⟨fun r' hr' hhash huser hcond ha => hc ?_, rfl⟩
      rw [hr] at hr'
      cases hr'
      exact ⟨hhash, huser, ha, hcond⟩

theorem updateFamilyMember_ok {jwtId familyId : String} {now : Timestamp}
    {eff : Effect Write Row Unit} (h : updateFamilyMember jwtId familyId now blocked d = .ok eff) :
    (∃ r, d.refreshTokens.find? jwtId = some r ∧ r.familyId = familyId ∧ r.Active ∧
      eff = { value := (), writes := [.refreshToken (r.revoke now)] }) ∨
    (∀ r, d.refreshTokens.find? jwtId = some r → r.familyId = familyId → ¬ r.Active) ∧
      eff.writes = [] := by
  unfold updateFamilyMember at h
  split at h
  · next hnone =>
    cases h
    exact .inr ⟨fun r hr => by simp [hnone] at hr, rfl⟩
  · next r hr =>
    split at h
    · next hc =>
      cases h
      exact .inl ⟨r, hr, hc.1, hc.2, rfl⟩
    · next hc =>
      cases h
      refine .inr ⟨fun r' hr' hfam ha => hc ?_, rfl⟩
      rw [hr] at hr'
      cases hr'
      exact ⟨hfam, ha⟩

end Sql

theorem decodeJwtToken_ok {token : String} {expectedType : TokenType} {now : Timestamp}
    {p : Payload} (h : decodeJwtToken security token expectedType now = .ok p) :
    security.payload? token = some p := by
  unfold decodeJwtToken at h
  split at h
  · cases h
  · next payload hp =>
    split at h
    · cases h
    · cases h
      exact Option.eq_some_of_filter_eq_some hp

open Auth.Sql

/-- A statement; for its locks nothing is required. -/
theorem wp_exec {β : Type} {q : Statement β} {Q : β → Txn signature → Shared signature → Prop}
    (h : ∀ s', (sessions security).Later x.held s s' → ∀ blocked eff,
      q blocked (replay x.pending s'.db) = .ok eff → Q eff.value (x.executed s' eff) s') :
    (sessions security).Wp (service security unicode) j (exec q) Q x s :=
  Contract.Wp.exec fun s' hl blocked eff hq => ⟨trivial, h s' hl blocked eff hq⟩

theorem wp_createJwtToken {subject : String} {tokenType : TokenType} {expiresDelta : ℤ}
    {Q : String × String × Timestamp → Txn signature → Shared signature → Prop}
    (h : ∀ s' token jti exp, (sessions security).Later x.held s s' →
      Q (token, jti, exp) (x.given jti) s') :
    (sessions security).Wp (service security unicode) j
      (createJwtToken security subject tokenType expiresDelta) Q x s :=
  Contract.Wp.now fun s' _ hl => Contract.Wp.uuid fun jti => h s' _ jti _ hl

/-- What `issueTokenPair` adds to a transaction: the row `r`. -/
structure Adds (user : User) (familyId : Option String) (x : Txn signature) (r : RefreshToken)
    (x' : Txn signature) (s' : Shared signature) : Prop where
  pending : x'.pending = x.pending ++ [.refreshToken r]
  held : ∀ l ∈ x.held, l ∈ x'.held
  lock : (.refreshToken r.jwtId, .noKeyUpdate) ∈ x'.held
  new : s'.db.refreshTokens.find? r.jwtId = none
  active : r.Active
  user : r.userId = user.id
  given : r.jwtId ∈ x'.idents
  family : familyId = some r.familyId ∨ familyId.filter (· ≠ "") = none ∧ r.familyId ∈ x'.idents

section

variable {user : User} {familyId : Option String} {r : RefreshToken} {x' : Txn signature}

/-- The new row is locked, so its id stays free. -/
theorem Adds.issued (h : Adds user familyId x r x' s')
    (hl : (sessions security).Later x'.held s' s'') : Issued x' s'' r :=
  ⟨(later_refreshToken hl h.lock).trans h.new, h.active, h.given⟩

theorem Adds.opened (h : Adds user none x r x' s') (hx : writtenTokens x.pending = [])
    (hl : (sessions security).Later x'.held s' s'') : Opened x' s'' r := by
  refine ⟨?_, h.issued hl, ?_⟩
  · rw [h.pending, writtenTokens_append, hx]
    rfl
  · obtain hf | ⟨-, hf⟩ := h.family
    · cases hf
    · exact hf

theorem wp_issueTokenPair {settings : Settings} {client : Client}
    {Q : TokenPair → Txn signature → Shared signature → Prop}
    (h : ∀ r x' s' pair, (sessions security).Later x.held s s' → Adds user familyId x r x' s' →
      Q pair x' s') :
    (sessions security).Wp (service security unicode) j
      (issueTokenPair security settings client user familyId) Q x s := by
  refine Contract.Wp.bind (wp_createJwtToken fun s₁ accessToken _ _ h₁ => ?_)
  refine Contract.Wp.bind (wp_createJwtToken fun s₂ token jti exp h₂ => ?_)
  refine Contract.Wp.now fun s₃ now h₃ => Contract.Wp.uuid fun id => ?_
  have hlater (s₄ : Shared signature) (h₄ : (sessions security).Later x.held s₃ s₄) :
      (sessions security).Later x.held s s₄ :=
    ((h₁.trans h₂ fun _ hm => hm).trans h₃ fun _ hm => hm).trans h₄ fun _ hm => hm
  have hinsert (r : RefreshToken) (x₁ : Txn signature) (hpend : x₁.pending = x.pending)
      (hheld : x₁.held = x.held) (hactive : r.Active) (huser : r.userId = user.id)
      (hgiven : r.jwtId ∈ x₁.idents)
      (hf : familyId = some r.familyId ∨
        familyId.filter (· ≠ "") = none ∧ r.familyId ∈ x₁.idents) :
      (sessions security).Wp (service security unicode) j
        (exec (insertRefreshToken r) >>= fun _ => pure
          { accessToken, refreshToken := token,
            expiresIn := settings.accessTokenExpireMinutes * 60 }) Q x₁ s₃ := by
    refine Contract.Wp.bind (wp_exec fun s₄ h₄ blocked eff hq => ?_)
    rw [hheld] at h₄
    rw [hpend] at hq
    obtain ⟨hnew, rfl⟩ := insertRefreshToken_ok hq
    refine h r _ s₄ _ (hlater s₄ h₄) ⟨?_, ?_, ?_, ?_, hactive, huser, hgiven, hf⟩
    · simp [Txn.executed, hpend]
    · intro l hl
      exact List.mem_append_left _ (hheld ▸ hl)
    · simp [Txn.executed]
    · -- what the session has written keeps the tokens that are there
      by_contra hold
      obtain ⟨ρ, hρ⟩ := Option.ne_none_iff_exists'.mp hold
      obtain ⟨ρ', hρ'⟩ := Database.exists_refreshToken_replay x.pending hρ
      rw [hnew] at hρ'
      cases hρ'
  dsimp only
  split
  · next f hf =>
    exact hinsert _ _ rfl rfl rfl rfl (by simp [Txn.given])
      (.inl (Option.eq_some_of_filter_eq_some hf))
  · next hf =>
    exact Contract.Wp.uuid fun i => hinsert _ _ rfl rfl rfl rfl (by simp [Txn.given])
      (.inr ⟨hf, by simp [Txn.given]⟩)

end

/-! ## Registration and login -/

theorem wp_createUser {request : RegisterRequest}
    {Q : User → Txn signature → Shared signature → Prop} (hx : x.pending = [])
    (h : ∀ user x' s', writtenTokens x'.pending = [] → Q user x' s') :
    (sessions security).Wp (service security unicode) j (createUser security unicode request)
      Q x s := by
  refine Contract.Wp.now fun s₁ now _ => Contract.Wp.uuid fun salt => Contract.Wp.uuid fun id => ?_
  refine Contract.Wp.bind (wp_exec fun s₂ _ blocked eff hq => ?_)
  split
  · trivial
  · refine h _ _ _ ?_
    simp [Txn.executed, hx, insertUser_ok hq]

theorem meets_register {settings : Settings} {client : Client} {payload : RegisterRequest} :
    (sessions security).Ok (service security unicode) (.register settings client payload)
      (program security unicode (.register settings client payload)) {} s := by
  refine Contract.Wp.bind (Contract.Wp.bind (wp_createUser rfl fun user x s hx => ?_))
  refine wp_issueTokenPair fun r x' s' pair _ hadds => ?_
  exact fun s'' hl => ⟨r, hadds.opened hx hl⟩

theorem wp_authenticateUser {request : LoginRequest}
    {Q : Option User → Txn signature → Shared signature → Prop} (hx : x.pending = [])
    (h : ∀ user x' s', writtenTokens x'.pending = [] → Q user x' s') :
    (sessions security).Wp (service security unicode) j
      (authenticateUser security unicode request) Q x s := by
  refine Contract.Wp.bind (wp_exec fun s₁ _ blocked eff hq => ?_)
  obtain rfl := Except.ok.inj hq
  have hnone (x' : Txn signature) (hx' : x'.pending = []) : writtenTokens x'.pending = [] := by
    rw [hx']
    rfl
  split
  · exact h _ _ _ (hnone _ (by simp [Txn.executed, hx]))
  · split
    · exact h _ _ _ (hnone _ (by simp [Txn.executed, hx]))
    · refine Contract.Wp.now fun s₂ now _ => wp_exec fun s₃ _ blocked eff hq => ?_
      refine h _ _ _ ?_
      simp [Txn.executed, hx, updateLastLogin_ok hq]

theorem meets_login {settings : Settings} {client : Client} {payload : LoginRequest} :
    (sessions security).Ok (service security unicode) (.login settings client payload)
      (program security unicode (.login settings client payload)) {} s := by
  refine Contract.Wp.bind (Contract.Wp.bind (wp_authenticateUser rfl fun user x s hx => ?_))
  split
  · trivial
  · refine wp_issueTokenPair fun r x' s' pair _ hadds => ?_
    exact fun s'' hl => ⟨r, hadds.opened hx hl⟩

/-! ## Rotation and logout -/

/-- The session has revoked the row of the token, as its first write. -/
structure Revoked (security : Security) (token : String) (p : Payload) (ρ : RefreshToken)
    (now : Timestamp) (x : Txn signature) (s : Shared signature) : Prop where
  row : s.db.refreshTokens.find? ρ.jwtId = some ρ
  presented : ρ.Of security token
  user : ρ.userId = p.sub
  active : ρ.Active
  lock : (.refreshToken ρ.jwtId, .noKeyUpdate) ∈ x.held
  pending : x.pending = [.refreshToken (ρ.revoke now)]

theorem Revoked.later {token : String} {p : Payload} {ρ : RefreshToken} {now : Timestamp}
    (h : Revoked security token p ρ now x s) (hl : (sessions security).Later x.held s s') :
    Revoked security token p ρ now x s' :=
  { h with row := (later_refreshToken hl h.lock).trans h.row }

/-- The `UPDATE` of the row of a token. -/
theorem wp_updateRefreshToken {token : String} {p : Payload} {now : Timestamp}
    {condition : RefreshToken → Bool} {Q : Option String → Txn signature → Shared signature → Prop}
    (hp : security.payload? token = some p) (hx : x.pending = [])
    (hsome : ∀ ρ x' s', Revoked security token p ρ now x' s' → Q (some ρ.familyId) x' s')
    (hnone : ∀ s', (∀ ρ, s'.db.refreshTokens.find? ρ.jwtId = some ρ → ρ.Of security token →
      condition ρ = true → ¬ ρ.Active) →
      Q none (x.executed s' (β := Option String) { value := none }) s') :
    (sessions security).Wp (service security unicode) j
      (exec (updateRefreshToken p.jti (security.hashToken token) p.sub now condition)) Q x s := by
  refine wp_exec fun s' _ blocked eff hq => ?_
  rw [hx] at hq
  rcases updateRefreshToken_ok hq with ⟨ρ, hρ, hhash, huser, ha, rfl⟩ | ⟨hno, rfl⟩
  · have hid : ρ.jwtId = p.jti := Table.key_of_find? hρ
    refine hsome ρ _ s' ⟨?_, ⟨p, hp, hid, hhash, huser⟩, huser, ha, ?_, ?_⟩
    · rw [hid]
      exact hρ
    · simp [Txn.executed]
    · simp [Txn.executed, hx]
  · refine hnone s' fun ρ hρ ⟨p', hp', hid, hhash, huser⟩ hcond => ?_
    obtain rfl : p = p' := Option.some.inj (hp.symm.trans hp')
    exact hno ρ (hid ▸ hρ) hhash huser hcond

theorem meets_refresh {settings : Settings} {client : Client} {token : String} :
    (sessions security).Ok (service security unicode) (.refresh settings client token)
      (program security unicode (.refresh settings client token)) {} s := by
  refine Contract.Wp.bind (Contract.Wp.now fun s₁ now₁ _ => ?_)
  split
  · trivial
  · next p hdecode =>
    have hp := decodeJwtToken_ok hdecode
    refine Contract.Wp.now fun s₂ now _ => Contract.Wp.bind ?_
    refine wp_updateRefreshToken hp rfl (fun ρ x s hrevoked => ?_) fun s₃ _ => ?_
    · refine Contract.Wp.bind (wp_exec fun s₄ h₄ blocked eff hq => ?_)
      obtain rfl := Except.ok.inj hq
      have hrevoked := hrevoked.later h₄
      dsimp only
      split
      · trivial
      · next user huser =>
        -- the row of the user is the one of the token
        have hid : user.id = ρ.userId :=
          (Table.key_of_find? (Option.eq_some_of_filter_eq_some huser)).trans hrevoked.user.symm
        refine wp_issueTokenPair fun r x' s₅ pair h₅ hadds => fun s₆ h₆ => ?_
        have hheld : ∀ l ∈ x.held, l ∈ x'.held :=
          fun l hl => hadds.held l (List.mem_append_left _ hl)
        have h₅ : (sessions security).Later x.held s₄ s₅ :=
          ⟨h₅.inv, h₅.leads, fun r m hm => h₅.rows r m (List.mem_append_left _ hm)⟩
        have hrow := (hrevoked.later (h₅.trans h₆ hheld)).row
        refine ⟨ρ, r, hrow, hrevoked.presented, hrevoked.active, ⟨now, ?_⟩, hadds.issued h₆,
          hadds.user.trans hid, ?_⟩
        · rw [hadds.pending]
          simp [Txn.executed, hrevoked.pending, writtenTokens, Write.refreshToken?]
        · obtain hf | ⟨hf, hgiven⟩ := hadds.family
          · exact .inl (Option.some.inj hf).symm
          · exact .inr ⟨by simpa using hf, hgiven⟩
    · intro s₄ _
      exact ⟨trivial, ⟨trivial, Guar.refl s₄, trivial⟩, fun _ => trivial⟩

theorem meets_logout {token : String} :
    (sessions security).Ok (service security unicode) (.logout token)
      (program security unicode (.logout token)) {} s := by
  refine Contract.Wp.bind (Contract.Wp.now fun s₁ now₁ _ => ?_)
  split
  · trivial
  · next p hdecode =>
    refine Contract.Wp.now fun s₂ now _ => Contract.Wp.bind ?_
    refine wp_updateRefreshToken (decodeJwtToken_ok hdecode) rfl (fun ρ x s hrevoked => ?_)
      fun s₃ hno => ?_
    · intro s₄ h₄
      have hrevoked := hrevoked.later h₄
      have hwritten : writtenTokens x.pending = [ρ.revoke now] := by
        simp [hrevoked.pending, writtenTokens, Write.refreshToken?]
      exact .revoked hrevoked.row hrevoked.presented hrevoked.active hwritten
    · exact fun s₄ _ => .unchanged rfl (fun ρ hρ hof => hno ρ hρ hof rfl) rfl

/-! ## Detection of reuse -/

/-- The loop of a check over the tokens it has seen: `done` have been dealt with. -/
structure Sweeping (check : ReuseCheck) (ρ : RefreshToken) (q : Shared signature)
    (done : List String) (x : Txn signature) (s : Shared signature) (rs : List RefreshToken) :
    Prop where
  finds : check.Finds x ρ
  saw : x.snapshots[1]? = some q
  since : Guar q s
  written : x.pending = rs.map fun r => .refreshToken (r.revoke check.now)
  row : ∀ r ∈ rs, s.db.refreshTokens.find? r.jwtId = some r ∧ r.Active ∧ r.familyId = ρ.familyId
  lock : ∀ r ∈ rs, (.refreshToken r.jwtId, .noKeyUpdate) ∈ x.held
  seen : ∀ r ∈ rs, (q.db.refreshTokens.find? r.jwtId).isSome = true
  complete : ∀ id ∈ done, (∃ r ∈ rs, r.jwtId = id) ∨
    ∃ r', s.db.refreshTokens.find? id = some r' ∧ ¬ r'.Active

namespace Sweeping

variable {check : ReuseCheck} {ρ : RefreshToken} {q : Shared signature} {done : List String}
  {rs : List RefreshToken}

/-- The tokens written so far are locked, and a revoked one stays revoked. -/
theorem later (h : Sweeping check ρ q done x s rs) (hl : (sessions security).Later x.held s s') :
    Sweeping check ρ q done x s' rs := by
  refine { h with
    since := h.since.trans (later_guar hl)
    row := fun r hr => ?_
    complete := fun id hid => ?_ }
  · obtain ⟨hrow, hrest⟩ := h.row r hr
    exact ⟨(later_refreshToken hl (h.lock r hr)).trans hrow, hrest⟩
  · refine (h.complete id hid).imp_right fun ⟨r', hr', ha⟩ => ?_
    obtain ⟨r'', hr'', hb⟩ := later_guar hl id r' hr'
    rw [hb.eq_of_revoked ha] at hr''
    exact ⟨r', hr'', ha⟩

/-- One more statement, and what it has written. -/
theorem executed (h : Sweeping check ρ q done x s rs) {β : Type} (eff : Effect Write Row β)
    {rs' : List RefreshToken} {id : String} (hid : (q.db.refreshTokens.find? id).isSome = true)
    (hw : eff.writes = rs'.map fun r => .refreshToken (r.revoke check.now))
    (hrs' : ∀ r ∈ rs', r.jwtId = id ∧ s.db.refreshTokens.find? r.jwtId = some r ∧ r.Active ∧
      r.familyId = ρ.familyId)
    (hdone : (∃ r ∈ rs ++ rs', r.jwtId = id) ∨
      ∃ r', s.db.refreshTokens.find? id = some r' ∧ ¬ r'.Active) :
    Sweeping check ρ q (done ++ [id]) (x.executed s eff) s (rs ++ rs') := by
  obtain ⟨q₀, hq₀, hfind⟩ := h.finds
  refine ⟨⟨q₀, Txn.getElem?_snapshots_executed hq₀, hfind⟩, Txn.getElem?_snapshots_executed h.saw,
    h.since, ?_, fun r hr => ?_, fun r hr => ?_, fun r hr => ?_, fun id' hid' => ?_⟩
  · simp [Txn.executed, h.written, hw]
  · rcases List.mem_append.mp hr with hr | hr
    · exact h.row r hr
    · exact (hrs' r hr).2
  · rcases List.mem_append.mp hr with hr | hr
    · exact List.mem_append_left _ (h.lock r hr)
    · refine List.mem_append_right _ (List.mem_append_right _ (mem_writeLocks.mpr ⟨rfl, ?_⟩))
      exact ⟨.refreshToken (r.revoke check.now), hw ▸ List.mem_map_of_mem hr, rfl⟩
  · rcases List.mem_append.mp hr with hr | hr
    · exact h.seen r hr
    · exact (hrs' r hr).1 ▸ hid
  · rcases List.mem_append.mp hid' with hid' | hid'
    · refine (h.complete id' hid').imp_left fun ⟨r, hr, he⟩ => ⟨r, List.mem_append_left _ hr, he⟩
    · rw [List.mem_singleton.mp hid']
      exact hdone

end Sweeping

/-- One of the tokens: revoked here, or no longer active. -/
theorem wp_updateFamilyMember {check : ReuseCheck} {ρ : RefreshToken} {q : Shared signature}
    {done : List String} {id : String} (hid : ∃ r, q.db.refreshTokens.find? id = some r ∧
      r.familyId = ρ.familyId) (h : ∃ rs, Sweeping check ρ q done x s rs) :
    (sessions security).Wp (service security unicode) j
      (exec (updateFamilyMember id ρ.familyId check.now))
      (fun _ x s => ∃ rs, Sweeping check ρ q (done ++ [id]) x s rs) x s := by
  obtain ⟨rs, h⟩ := h
  obtain ⟨r₀, hr₀, hfamily⟩ := hid
  have hseen : (q.db.refreshTokens.find? id).isSome = true := by simp [hr₀]
  refine wp_exec fun s' hl blocked eff hq => ?_
  have h := h.later hl
  rw [h.written] at hq
  rcases updateFamilyMember_ok hq with ⟨r, hr, hf, ha, rfl⟩ | ⟨hno, hw⟩
  · -- a row that is active has not been written here
    have hstored : s'.db.refreshTokens.find? id = some r := by
      rcases Database.refreshToken_replay hr with ⟨hmem, -⟩ | ⟨hstored, -⟩
      · obtain ⟨r', -, he⟩ := List.mem_map.mp hmem
        cases he
        exact absurd ha (RefreshToken.not_active_revoke _ r')
      · exact hstored
    have hkey : r.jwtId = id := Table.key_of_find? hstored
    have hrow : s'.db.refreshTokens.find? r.jwtId = some r := by rw [hkey, hstored]
    refine ⟨rs ++ [r], h.executed _ hseen rfl (fun r' hr' => ?_) (.inl ⟨r, by simp, hkey⟩)⟩
    obtain rfl := List.mem_singleton.mp hr'
    exact ⟨hkey, hrow, ha, hf⟩
  · refine ⟨rs ++ [], h.executed eff hseen hw (by simp) ?_⟩
    obtain ⟨r', hr', hb⟩ := h.since id r₀ hr₀
    by_cases ha : r'.Active
    · -- the row it is for the statement is one the session has written
      left
      by_contra hnot
      have hview : (replay (rs.map fun r => .refreshToken (r.revoke check.now))
          s'.db).refreshTokens.find? id = s'.db.refreshTokens.find? id :=
        Database.refreshToken_untouched fun r hr he => by
          obtain ⟨r'', hmem, he'⟩ := List.mem_map.mp hr
          cases he'
          exact hnot ⟨r'', List.mem_append_left _ hmem, he⟩
      exact hno r' (hview.trans hr') (hb.familyId.trans hfamily) ha
    · exact .inr ⟨r', hr', ha⟩

/-- All of them. -/
theorem wp_updateFamily {check : ReuseCheck} {ρ : RefreshToken} {q : Shared signature}
    {ids : List String} (hids : ∀ id ∈ ids, ∃ r, q.db.refreshTokens.find? id = some r ∧
      r.familyId = ρ.familyId) (h : Sweeping check ρ q [] x s []) :
    (sessions security).Wp (service security unicode) j
      (forEach ids fun id => exec (updateFamilyMember id ρ.familyId check.now))
      (fun _ x s => ∃ rs, Sweeping check ρ q ids x s rs) x s :=
  Contract.Wp.forEach (I := fun done x s => ∃ rs, Sweeping check ρ q done x s rs)
    (fun _ id hid _ _ h => wp_updateFamilyMember (hids id hid) h) ⟨[], h⟩

theorem meets_detectRefreshReuse {check : ReuseCheck} :
    (sessions security).Ok (service security unicode) (.detectRefreshReuse check)
      (program security unicode (.detectRefreshReuse check)) {} s := by
  refine Contract.Wp.bind (Contract.Wp.bind (wp_exec fun s₁ h₁ blocked eff hq => ?_))
  obtain rfl := Except.ok.inj hq
  -- what the first statement has found, as the session knows it from here on
  have hfinds (x : Txn signature) (hx : x.snapshots[0]? = some s₁) (ρ : RefreshToken) :
      check.Finds x ρ ↔ s₁.db.refreshTokens.find? check.jwtId = some ρ ∧
        ρ.tokenHash = check.tokenHash ∧ ρ.userId = check.userId := by
    constructor
    · rintro ⟨q, hq, hρ⟩
      rw [hx] at hq
      cases hq
      exact hρ
    · exact fun hρ => ⟨s₁, hx, hρ⟩
  simp only [replay_nil]
  cases hrow : (s₁.db.refreshTokens.find? check.jwtId).filter fun r =>
      r.tokenHash = check.tokenHash ∧ r.userId = check.userId with
  | none =>
    refine fun s₂ _ => .nothing (fun ρ hρ => ?_) rfl
    obtain ⟨hρ, hmatch⟩ := (hfinds _ rfl ρ).mp hρ
    simp [hρ, hmatch] at hrow
  | some ρ =>
    obtain ⟨hρ, hmatch⟩ := Option.filter_eq_some_iff.mp hrow
    cases hrev : ρ.revokedAt with
    | none =>
      simp only [Option.map_some, hrev]
      refine fun s₂ _ => .nothing (fun ρ' hρ' => ?_) rfl
      obtain ⟨hρ', -⟩ := (hfinds _ rfl ρ').mp hρ'
      rw [hρ] at hρ'
      cases hρ'
      exact hrev
    | some at' =>
      simp only [Option.map_some, hrev]
      have hrevoked : ¬ ρ.Active := by simp [RefreshToken.Active, hrev]
      refine Contract.Wp.bind (wp_exec fun q h₂ blocked eff hq => ?_)
      obtain rfl := Except.ok.inj hq
      have hids : ∀ id ∈ (q.db.refreshTokens.rows.filter fun r =>
          r.familyId = ρ.familyId ∧ r.revokedAt = none).map (·.jwtId),
          ∃ r, q.db.refreshTokens.find? id = some r ∧ r.familyId = ρ.familyId := by
        intro id hid
        obtain ⟨r, hr, rfl⟩ := List.mem_map.mp hid
        obtain ⟨hr, hf⟩ := List.mem_filter.mp hr
        exact ⟨r, Table.find?_of_mem hr, (of_decide_eq_true hf).1⟩
      refine Contract.Wp.mono (fun _ x s hswept => ?_) (wp_updateFamily hids ?_)
      · obtain ⟨rs, hswept⟩ := hswept
        intro s' hl
        have hswept := hswept.later hl
        refine .reuse hswept.finds hrevoked hswept.saw ⟨?_, hswept.row, hswept.seen, ?_⟩
        · rw [hswept.written, writtenTokens, List.filterMap_map]
          exact congrFun (List.filterMap_eq_map (f := RefreshToken.revoke check.now)) rs
        · intro r hr ha hf
          exact hswept.complete r.jwtId (List.mem_map.mpr ⟨r, List.mem_filter.mpr ⟨hr, by
            simpa using ⟨hf, ha⟩⟩, rfl⟩)
      · exact ⟨(hfinds _ rfl ρ).mpr ⟨hρ, by simpa using hmatch⟩, rfl, Guar.refl q, rfl, by simp,
          by simp, by simp, by simp⟩

/-- Every session meets the contract. -/
theorem valid_sessions : (sessions security).Valid (service security unicode) fun _ => True := by
  refine ⟨fun j _ s _ => ?_, fun j v x s _ _ _ _ ho => ⟨ho.lawful.guar, trivial⟩,
    fun e s o _ _ => ⟨fun id r hr => ⟨r, hr, .refl r⟩, trivial⟩⟩
  cases j with
  | register => exact meets_register
  | login => exact meets_login
  | refresh => exact meets_refresh
  | logout => exact meets_logout
  | detectRefreshReuse => exact meets_detectRefreshReuse

end MoneyWay.Auth
