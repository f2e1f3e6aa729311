import MoneyWay.Auth.Service
import MoneyWay.Library.ReadCommitted.Soundness

/-!
# What a session commits to the refresh tokens

A commit adds tokens, which are active, and revokes active ones; a token changes in no other
way and never goes. For every job, which tokens it has written when it commits, what is known
then about the rows behind them, and what its statements have seen: this is the contract
`sessions` that every session meets.
-/

set_option autoImplicit false

namespace MoneyWay.Auth

open Keyed ReadCommitted

variable (security : Security)

def Write.refreshToken? : Write → Option RefreshToken
  | .refreshToken r => some r
  | .user _ => none

/-- The tokens among some writes. -/
def writtenTokens (ws : List Write) : List RefreshToken := ws.filterMap Write.refreshToken?

@[simp] theorem mem_writtenTokens {ws : List Write} {r : RefreshToken} :
    r ∈ writtenTokens ws ↔ .refreshToken r ∈ ws := by
  rw [writtenTokens, List.mem_filterMap]
  constructor
  · rintro ⟨w, hw, hr⟩
    cases w with
    | user u => cases hr
    | refreshToken r' =>
      cases hr
      exact hw
  · exact fun h => ⟨_, h, rfl⟩

theorem writtenTokens_append (ws vs : List Write) :
    writtenTokens (ws ++ vs) = writtenTokens ws ++ writtenTokens vs := List.filterMap_append

namespace RefreshToken

def Active (r : RefreshToken) : Prop := r.revokedAt = none

instance (r : RefreshToken) : Decidable r.Active := inferInstanceAs (Decidable (_ = _))

@[simp] theorem revoke_jwtId (now : Timestamp) (r : RefreshToken) :
    (r.revoke now).jwtId = r.jwtId := rfl

@[simp] theorem revoke_familyId (now : Timestamp) (r : RefreshToken) :
    (r.revoke now).familyId = r.familyId := rfl

@[simp] theorem revoke_userId (now : Timestamp) (r : RefreshToken) :
    (r.revoke now).userId = r.userId := rfl

theorem not_active_revoke (now : Timestamp) (r : RefreshToken) : ¬ (r.revoke now).Active := by
  simp [Active, revoke]

/-- What may become of a stored token. -/
def Becomes (r r' : RefreshToken) : Prop := r' = r ∨ r.Active ∧ ∃ now, r' = r.revoke now

namespace Becomes

variable {r r' r'' : RefreshToken}

theorem refl (r : RefreshToken) : Becomes r r := .inl rfl

theorem familyId (h : Becomes r r') : r'.familyId = r.familyId := by
  obtain rfl | ⟨-, now, rfl⟩ := h <;> rfl

theorem userId (h : Becomes r r') : r'.userId = r.userId := by
  obtain rfl | ⟨-, now, rfl⟩ := h <;> rfl

/-- A revoked token stays as it is. -/
theorem eq_of_revoked (h : Becomes r r') (hr : ¬ r.Active) : r' = r := by
  obtain rfl | ⟨ha, -⟩ := h
  · rfl
  · exact absurd ha hr

/-- An active token has not changed. -/
theorem eq_of_active (h : Becomes r r') (hr : r'.Active) : r' = r := by
  obtain rfl | ⟨-, now, rfl⟩ := h
  · rfl
  · exact absurd hr (not_active_revoke now r)

theorem trans (h : Becomes r r') (h' : Becomes r' r'') : Becomes r r'' := by
  obtain rfl | ⟨ha, now, rfl⟩ := h
  · exact h'
  · rw [h'.eq_of_revoked (not_active_revoke now r)]
    exact .inr ⟨ha, now, rfl⟩

end Becomes

/-- The row of a refresh token. -/
def Of (token : String) (r : RefreshToken) : Prop :=
  ∃ p, security.payload? token = some p ∧ r.jwtId = p.jti ∧
    r.tokenHash = security.hashToken token ∧ r.userId = p.sub

end RefreshToken

/-- What a change of the shared state does to the tokens. -/
def Guar (s s' : Shared signature) : Prop :=
  ∀ id r, s.db.refreshTokens.find? id = some r →
    ∃ r', s'.db.refreshTokens.find? id = some r' ∧ r.Becomes r'

theorem Guar.refl (s : Shared signature) : Guar s s := fun _ r h => ⟨r, h, .refl r⟩

theorem Guar.trans {s s' s'' : Shared signature} (h : Guar s s') (h' : Guar s' s'') :
    Guar s s'' := by
  intro id r hr
  obtain ⟨r', hr', hb⟩ := h id r hr
  obtain ⟨r'', hr'', hb'⟩ := h' id r' hr'
  exact ⟨r'', hr'', hb.trans hb'⟩

/-- The tokens among some writes are new, or active ones that are revoked. -/
def Lawful (d : Database) (ws : List Write) : Prop :=
  ∀ r ∈ writtenTokens ws, d.refreshTokens.find? r.jwtId = none ∨
    ∃ ρ now, d.refreshTokens.find? ρ.jwtId = some ρ ∧ ρ.Active ∧ r = ρ.revoke now

/-- Lawful writes keep to the guarantee. -/
theorem Lawful.guar {s : Shared signature} {ws : List Write} (h : Lawful s.db ws) :
    Guar s ⟨replay ws s.db, s.ext⟩ := by
  intro id r hr
  obtain ⟨r', hr'⟩ := Database.exists_refreshToken_replay ws hr
  refine ⟨r', hr', ?_⟩
  rcases Database.refreshToken_replay hr' with ⟨hw, rfl⟩ | ⟨hold, -⟩
  · rcases h r' (mem_writtenTokens.mpr hw) with hnew | ⟨ρ, now, hρ, ha, rfl⟩
    · rw [hr] at hnew
      cases hnew
    · rw [RefreshToken.revoke_jwtId, hρ] at hr
      cases hr
      exact .inr ⟨ha, now, rfl⟩
  · rw [hr] at hold
    cases hold
    exact .refl r

/-! ## The outcomes -/

section Outcomes

variable (x : Txn signature) (s : Shared signature)

/-- The token a session has issued: new, with an id it has been given. -/
structure Issued (r : RefreshToken) : Prop where
  new : s.db.refreshTokens.find? r.jwtId = none
  active : r.Active
  given : r.jwtId ∈ x.idents

/-- The first token of a family. -/
structure Opened (r : RefreshToken) : Prop where
  written : writtenTokens x.pending = [r]
  issued : Issued x s r
  family : r.familyId ∈ x.idents

/-- A token is revoked, and the next one of its session takes its place. -/
structure Rotated (token : String) (ρ r : RefreshToken) : Prop where
  row : s.db.refreshTokens.find? ρ.jwtId = some ρ
  presented : ρ.Of security token
  active : ρ.Active
  written : ∃ now, writtenTokens x.pending = [ρ.revoke now, r]
  issued : Issued x s r
  user : r.userId = ρ.userId
  family : r.familyId = ρ.familyId ∨ ρ.familyId = "" ∧ r.familyId ∈ x.idents

/-- A logout has revoked the token, or has found that it is not active. -/
inductive LoggedOut (token : String) : Prop
  | revoked {ρ : RefreshToken} {now : Timestamp} : s.db.refreshTokens.find? ρ.jwtId = some ρ →
      ρ.Of security token → ρ.Active → writtenTokens x.pending = [ρ.revoke now] →
      LoggedOut token
  | unchanged {q : Shared signature} : x.snapshots[0]? = some q →
      (∀ ρ, q.db.refreshTokens.find? ρ.jwtId = some ρ → ρ.Of security token → ¬ ρ.Active) →
      writtenTokens x.pending = [] → LoggedOut token

/-- The row a check is about, in the state its first statement has read. -/
def ReuseCheck.Finds (check : ReuseCheck) (ρ : RefreshToken) : Prop :=
  ∃ q, x.snapshots[0]? = some q ∧ q.db.refreshTokens.find? check.jwtId = some ρ ∧
    ρ.tokenHash = check.tokenHash ∧ ρ.userId = check.userId

/-- The tokens of a family that a check has revoked: of those it has seen in `q`, the ones
that were still active. -/
structure Swept (now : Timestamp) (familyId : String) (q : Shared signature)
    (rs : List RefreshToken) : Prop where
  written : writtenTokens x.pending = rs.map (RefreshToken.revoke now)
  row : ∀ ρ ∈ rs, s.db.refreshTokens.find? ρ.jwtId = some ρ ∧ ρ.Active ∧ ρ.familyId = familyId
  seen : ∀ ρ ∈ rs, (q.db.refreshTokens.find? ρ.jwtId).isSome = true
  complete : ∀ r ∈ q.db.refreshTokens.rows, r.Active → r.familyId = familyId →
    (∃ ρ ∈ rs, ρ.jwtId = r.jwtId) ∨
      ∃ r', s.db.refreshTokens.find? r.jwtId = some r' ∧ ¬ r'.Active

inductive Checked (check : ReuseCheck) : Prop
  | nothing : (∀ ρ, check.Finds x ρ → ρ.Active) → writtenTokens x.pending = [] → Checked check
  | reuse {ρ : RefreshToken} {q : Shared signature} {rs : List RefreshToken} :
      check.Finds x ρ → ¬ ρ.Active → x.snapshots[1]? = some q →
      Swept x s check.now ρ.familyId q rs → Checked check

/-- What is known when a job commits. -/
def Outcome : Job → Prop
  | .register _ _ _ | .login _ _ _ => ∃ r, Opened x s r
  | .refresh _ _ token => ∃ ρ r, Rotated security x s token ρ r
  | .logout token => LoggedOut security x s token
  | .detectRefreshReuse check => Checked x s check

end Outcomes

section

variable {security} {x : Txn signature} {s : Shared signature} {j : Job}

/-- Every outcome is lawful. -/
theorem Outcome.lawful (h : Outcome security x s j) : Lawful s.db x.pending := by
  have hopened (h : ∃ r, Opened x s r) : Lawful s.db x.pending := by
    obtain ⟨r, h⟩ := h
    intro r' hr'
    rw [h.written, List.mem_singleton] at hr'
    exact .inl (hr' ▸ h.issued.new)
  cases j with
  | register | login => exact hopened h
  | refresh settings client token =>
    obtain ⟨ρ, r, h⟩ := h
    obtain ⟨now, hw⟩ := h.written
    intro r' hr'
    rw [hw] at hr'
    rcases List.mem_pair.mp hr' with rfl | rfl
    · exact .inr ⟨ρ, now, h.row, h.active, rfl⟩
    · exact .inl h.issued.new
  | logout token =>
    intro r' hr'
    cases h with
    | @revoked ρ now hrow _ ha hw =>
      rw [hw, List.mem_singleton] at hr'
      exact .inr ⟨ρ, now, hrow, ha, hr'⟩
    | unchanged _ _ hw =>
      rw [hw] at hr'
      cases hr'
  | detectRefreshReuse check =>
    intro r' hr'
    cases h with
    | nothing _ hw =>
      rw [hw] at hr'
      cases hr'
    | reuse _ _ _ hs =>
      rw [hs.written] at hr'
      obtain ⟨ρ, hρ, rfl⟩ := List.mem_map.mp hr'
      exact .inr ⟨ρ, check.now, (hs.row ρ hρ).1, (hs.row ρ hρ).2.1, rfl⟩

end

/-- The contract of the sessions. -/
def sessions : Contract signature where
  inv := fun _ => True
  guar := Guar
  ask := fun _ _ _ _ => True
  sends := fun _ _ _ => True
  post := fun j _ x s => Outcome security x s j
  single := fun _ _ => True

end MoneyWay.Auth
