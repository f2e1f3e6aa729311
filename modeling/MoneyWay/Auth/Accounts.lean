import MoneyWay.Auth.Sessions
import MoneyWay.Library.ReadCommitted.Unique

/-!
# Accounts

A registration adds a user, whose role is `user` and who is active, and a login notes when it
was. Nothing else happens to the users: an account keeps its address, its password, its role
and whether it is active, and no two accounts have one address. Whoever registers, logs in or
rotates a token is given tokens for his own account.

## Main definitions

- `User.account` — what no request changes
- `AccountsKept` — what any commit leaves of the users
- `TokenPair.For` — the tokens of an account
- `Job.Admits`, `Grants` — whose tokens a request may have, and gets
- `emails` — the unique index of the addresses

## Main results

- `valid_accounts` — the contract of the sessions as far as users go
- `accounts_kept`, `granted_of_commits`, `emails_unique` — in every history
-/

set_option autoImplicit false

namespace MoneyWay.Auth

open Keyed ReadCommitted Python Prog

/-- The user but for the times that a login sets. -/
def User.account (u : User) : User := { u with lastLoginAt := none, updatedAt := 0 }

section

variable {u u' : User} (h : u'.account = u.account)

include h

theorem User.id_of_account : u'.id = u.id :=
  (congrArg User.id h : u'.account.id = u.account.id)

theorem User.email_of_account : u'.email = u.email :=
  (congrArg User.email h : u'.account.email = u.account.email)

theorem User.passwordHash_of_account : u'.passwordHash = u.passwordHash :=
  (congrArg User.passwordHash h : u'.account.passwordHash = u.account.passwordHash)

theorem User.role_of_account : u'.role = u.role :=
  (congrArg User.role h : u'.account.role = u.account.role)

theorem User.isActive_of_account : u'.isActive = u.isActive :=
  (congrArg User.isActive h : u'.account.isActive = u.account.isActive)

end

namespace Database

variable {d : Database} {id : String} {ws : List Write}

theorem row_user {d' : Database} (h : d'.row (.user id) = d.row (.user id)) :
    d'.users.find? id = d.users.find? id :=
  Option.map_injective (fun _ _ => Write.user.inj) h

/-- A user after a list of writes has been written or was there before. -/
theorem user_replay {u : User} (h : (replay ws d).users.find? id = some u) :
    .user u ∈ ws ∧ u.id = id ∨ d.users.find? id = some u := by
  have hr : Store.row (.user id) (replay ws d) = some (.user u) := by
    simp only [store_row, row, h, Option.map_some]
  obtain ⟨hw, ht⟩ | ⟨hd, -⟩ := row_replay_cases hr
  · exact .inl ⟨hw, by simpa [Write.target] using ht⟩
  · exact .inr (by simpa [row] using hd)

/-- Writes keep every user in the table. -/
theorem exists_user_replay (ws : List Write) {u : User} (h : d.users.find? id = some u) :
    ∃ u', (replay ws d).users.find? id = some u' := by
  have hr : (Store.row (.user id) (replay ws d)).isSome = true :=
    isSome_row_replay (fun _ _ _ => rfl) (by simp [row, h])
  simpa [row, Option.isSome_iff_exists] using hr

/-- A user that is written last is the one in the table. -/
theorem user_replay_last {u : User} {r : RefreshToken} :
    (replay [.user u, .refreshToken r] d).users.find? u.id = some u :=
  Table.find?_put_self d.users u

end Database

/-- Accounts stay, and those that are added are active and have no rights. -/
structure AccountsKept (d d' : Database) : Prop where
  kept : ∀ id u, d.users.find? id = some u →
    ∃ u', d'.users.find? id = some u' ∧ u'.account = u.account
  new : ∀ id u', d'.users.find? id = some u' → d.users.find? id = none →
    u'.role = .user ∧ u'.isActive = true

namespace AccountsKept

variable {d d' d'' : Database}

theorem refl (d : Database) : AccountsKept d d := by
  refine ⟨fun id u hu => ⟨u, hu, rfl⟩, fun id u hu hnew => ?_⟩
  rw [hu] at hnew
  cases hnew

theorem trans (h : AccountsKept d d') (h' : AccountsKept d' d'') : AccountsKept d d'' := by
  constructor
  · intro id u hu
    obtain ⟨u', hu', he⟩ := h.kept id u hu
    obtain ⟨u'', hu'', he'⟩ := h'.kept id u' hu'
    exact ⟨u'', hu'', he'.trans he⟩
  · intro id u'' hu'' hnew
    cases hd' : d'.users.find? id with
    | none => exact h'.new id u'' hu'' hd'
    | some u' =>
      obtain ⟨u₂, hu₂, he⟩ := h'.kept id u' hd'
      obtain rfl : u'' = u₂ := Option.some.inj (hu''.symm.trans hu₂)
      obtain ⟨hrole, hactive⟩ := h.new id u' hd' hnew
      exact ⟨(User.role_of_account he).trans hrole, (User.isActive_of_account he).trans hactive⟩

end AccountsKept

/-- What a session writes of the users: new ones, and old ones as they are. -/
def KeepsAccounts (d : Database) (ws : List Write) : Prop :=
  ∀ u, .user u ∈ ws → (d.users.find? u.id = none ∧ u.role = .user ∧ u.isActive = true) ∨
    ∃ u₀, d.users.find? u.id = some u₀ ∧ u.account = u₀.account

theorem KeepsAccounts.accountsKept {d : Database} {ws : List Write} (h : KeepsAccounts d ws) :
    AccountsKept d (replay ws d) := by
  constructor
  · intro id u hu
    obtain ⟨u', hu'⟩ := Database.exists_user_replay ws hu
    refine ⟨u', hu', ?_⟩
    obtain ⟨hw, rfl⟩ | hold := Database.user_replay hu'
    · obtain ⟨hnone, -⟩ | ⟨u₀, hu₀, he⟩ := h u' hw
      · rw [hu] at hnone
        cases hnone
      · rw [hu] at hu₀
        rw [he, ← Option.some.inj hu₀]
    · rw [hu] at hold
      rw [← Option.some.inj hold]
  · intro id u' hu' hnew
    obtain ⟨hw, rfl⟩ | hold := Database.user_replay hu'
    · obtain ⟨-, hnew'⟩ | ⟨u₀, hu₀, -⟩ := h u' hw
      · exact hnew'
      · rw [hnew] at hu₀
        cases hu₀
    · rw [hnew] at hold
      cases hold

theorem KeepsAccounts.of_forall_ne {d : Database} {ws : List Write} (h : ∀ u, .user u ∉ ws) :
    KeepsAccounts d ws := fun u hu => absurd hu (h u)

/-! ## Tokens -/

variable (security : Security)

def Job.settings? : Job → Option Settings
  | .register settings _ _ | .login settings _ _ | .refresh settings _ _ => some settings
  | .logout _ | .detectRefreshReuse _ => none

/-- The tokens of the user with this id, made between two times. -/
structure TokenPair.For (settings : Settings) (id : String) (first last : Timestamp)
    (pair : TokenPair) : Prop where
  access : ∃ jti iat, first ≤ iat ∧ iat ≤ last ∧ pair.accessToken =
    security.encode ⟨id, .access, jti, iat, iat + minutes settings.accessTokenExpireMinutes⟩
  refresh : ∃ jti iat, first ≤ iat ∧ iat ≤ last ∧ pair.refreshToken =
    security.encode ⟨id, .refresh, jti, iat, iat + days settings.refreshTokenExpireDays⟩

theorem TokenPair.For.mono {settings : Settings} {id : String} {first last first' last' : Timestamp}
    {pair : TokenPair} (h : pair.For security settings id first last) (hfirst : first' ≤ first)
    (hlast : last ≤ last') : pair.For security settings id first' last' := by
  obtain ⟨⟨jti, iat, h₁, h₂, he⟩, ⟨jti', iat', h₁', h₂', he'⟩⟩ := h
  exact ⟨⟨jti, iat, hfirst.trans h₁, h₂.trans hlast, he⟩,
    ⟨jti', iat', hfirst.trans h₁', h₂'.trans hlast, he'⟩⟩

/-- The request may have tokens for this account. -/
def Job.Admits (unicode : Unicode) : Job → User → Prop
  | .register _ _ payload, u =>
    u.email = normalizeEmail unicode payload.email ∧
      ∃ salt, u.passwordHash = security.hashPassword salt payload.password
  | .login _ _ payload, u =>
    u.email = normalizeEmail unicode payload.email ∧
      security.verifyPassword payload.password u.passwordHash = true
  | .refresh _ _ token, u =>
    ∃ p, security.payload? token = some p ∧ p.type = .refresh ∧ u.id = p.sub
  | .logout _, _ | .detectRefreshReuse _, _ => False

theorem Job.Admits.of_account {unicode : Unicode} {j : Job} {u u' : User}
    (h : j.Admits security unicode u) (he : u'.account = u.account) :
    j.Admits security unicode u' := by
  cases j with
  | register settings client payload =>
    obtain ⟨hemail, salt, hhash⟩ := h
    exact ⟨(User.email_of_account he).trans hemail, salt,
      (User.passwordHash_of_account he).trans hhash⟩
  | login settings client payload =>
    obtain ⟨hemail, hpassword⟩ := h
    rw [← User.passwordHash_of_account he] at hpassword
    exact ⟨(User.email_of_account he).trans hemail, hpassword⟩
  | refresh settings client token =>
    obtain ⟨p, hp, htype, hid⟩ := h
    exact ⟨p, hp, htype, (User.id_of_account he).trans hid⟩
  | logout | detectRefreshReuse => cases h

/-- Tokens for the account `u` that the request may have, made since it has read `q`. -/
structure Grants (unicode : Unicode) (j : Job) (pair : TokenPair) (x : Txn signature)
    (s : Shared signature) (settings : Settings) (u : User) (q : Shared signature) : Prop where
  asked : j.settings? = some settings
  admits : j.Admits security unicode u
  isActive : u.isActive = true
  stored : (replay x.pending s.db).users.find? u.id = some u
  new : ∀ settings client payload, j = .register settings client payload →
    s.db.users.find? u.id = none
  read : x.snapshots[0]? = some q
  pair : pair.For security settings u.id q.ext.now s.ext.now

def Granted (unicode : Unicode) (j : Job) (pair : TokenPair) (x : Txn signature)
    (s : Shared signature) : Prop := ∃ settings u q, Grants security unicode j pair x s settings u q

/-- The contract of the sessions as far as users go. -/
def accounts (unicode : Unicode) : Contract signature where
  inv := fun _ => True
  guar := fun s s' => AccountsKept s.db s'.db ∧ s.ext.now ≤ s'.ext.now
  ask := fun _ _ _ _ => True
  sends := fun _ _ _ => True
  post := fun j v x s => KeepsAccounts s.db x.pending ∧
    ∀ pair, v = .tokens pair → Granted security unicode j pair x s
  single := fun _ _ => True

variable {security} {unicode : Unicode} {j : Job} {x : Txn signature}
  {s s' : Shared signature} {held : List (Row × LockMode)}

section Later

variable (h : (accounts security unicode).Later held s s')

include h

theorem accountsKept_of_later : AccountsKept s.db s'.db ∧ s.ext.now ≤ s'.ext.now :=
  h.leads.lift (r := fun s s' : Shared signature =>
    AccountsKept s.db s'.db ∧ s.ext.now ≤ s'.ext.now)
    (fun s => ⟨.refl s.db, le_refl _⟩) (fun _ _ _ h h' => ⟨h.1.trans h'.1, h.2.trans h'.2⟩)
    fun _ _ hg => hg

/-- A user that the session has written is for the others as it was. -/
theorem user_of_later {id : String} (hm : (.user id, .noKeyUpdate) ∈ held) :
    s'.db.users.find? id = s.db.users.find? id :=
  Database.row_user (h.rows _ _ hm rfl)

end Later

namespace Sql

variable {d : Database} {blocked : Row → LockMode → Bool}

theorem insertUser_cases {u : User} {eff : Effect Write Row (Option User)}
    (h : insertUser u blocked d = .ok eff) :
    eff = { value := none, locks := [(.email u.email, .noKeyUpdate)] } ∨
      d.users.find? u.id = none ∧ (∀ u' ∈ d.users.rows, u'.email ≠ u.email) ∧ eff = {
        value := some u
        writes := [.user u]
        locks := [(.email u.email, .noKeyUpdate)] } := by
  unfold insertUser at h
  split at h
  · exact .inl (Except.ok.inj h).symm
  · next hfree =>
    simp only [Bool.or_eq_true, not_or, Bool.not_eq_true, Option.isSome_eq_false_iff,
      Option.isNone_iff_eq_none, List.any_eq_false, decide_eq_true_eq] at hfree
    exact .inr ⟨hfree.1, hfree.2, (Except.ok.inj h).symm⟩

theorem updateLastLogin_cases {id : String} {now : Timestamp}
    {eff : Effect Write Row (Option User)} (h : updateLastLogin id now blocked d = .ok eff) :
    eff = { value := none } ∧ d.users.find? id = none ∨
      ∃ u, d.users.find? id = some u ∧
        eff = { value := some { u with lastLoginAt := some now, updatedAt := now }
                writes := [.user { u with lastLoginAt := some now, updatedAt := now }] } := by
  unfold updateLastLogin at h
  split at h
  · next hnone =>
    cases h
    exact .inl ⟨rfl, hnone⟩
  · next u hu =>
    cases h
    exact .inr ⟨u, hu, rfl⟩

/-- The row of a token, or nothing, is all that is written. -/
theorem updateRefreshToken_writes {jwtId tokenHash userId : String} {now : Timestamp}
    {condition : RefreshToken → Bool} {eff : Effect Write Row (Option String)}
    (h : updateRefreshToken jwtId tokenHash userId now condition blocked d = .ok eff) :
    ∀ u, .user u ∉ eff.writes := by
  cases updateRefreshToken_ok h with
  | inl hsome =>
    obtain ⟨r, -, -, -, -, rfl⟩ := hsome
    simp
  | inr hnone =>
    obtain ⟨-, rfl⟩ := hnone
    simp

theorem updateFamilyMember_writes {jwtId familyId : String} {now : Timestamp}
    {eff : Effect Write Row Unit} (h : updateFamilyMember jwtId familyId now blocked d = .ok eff) :
    ∀ u, .user u ∉ eff.writes := by
  cases updateFamilyMember_ok h with
  | inl hsome =>
    obtain ⟨r, -, -, -, rfl⟩ := hsome
    simp
  | inr hnone => simp [hnone.2]

end Sql

theorem decodeJwtToken_type {token : String} {expectedType : TokenType} {now : Timestamp}
    {p : Payload} (h : decodeJwtToken security token expectedType now = .ok p) :
    p.type = expectedType := by
  unfold decodeJwtToken at h
  split at h
  · cases h
  · split at h
    · cases h
    · next htype =>
      cases h
      exact not_not.mp htype

open Auth.Sql

/-- A statement; for its locks nothing is required. -/
theorem accounts_exec {β : Type} {q : Statement β}
    {Q : β → Txn signature → Shared signature → Prop}
    (h : ∀ s', (accounts security unicode).Later x.held s s' → ∀ blocked eff,
      q blocked (replay x.pending s'.db) = .ok eff → Q eff.value (x.executed s' eff) s') :
    (accounts security unicode).Wp (service security unicode) j (exec q) Q x s :=
  Contract.Wp.exec fun s' hl blocked eff hq => ⟨trivial, h s' hl blocked eff hq⟩

theorem accounts_createJwtToken {subject : String} {tokenType : TokenType} {expiresDelta : ℤ}
    {Q : String × String × Timestamp → Txn signature → Shared signature → Prop}
    (h : ∀ s' jti, (accounts security unicode).Later x.held s s' →
      Q (security.encode ⟨subject, tokenType, jti, s'.ext.now, s'.ext.now + expiresDelta⟩, jti,
        s'.ext.now + expiresDelta) (x.given jti) s') :
    (accounts security unicode).Wp (service security unicode) j
      (createJwtToken security subject tokenType expiresDelta) Q x s :=
  Contract.Wp.clock fun s' hl => Contract.Wp.uuid fun jti => h s' jti hl

/-- A pair is made for the user, and one token is written. -/
theorem accounts_issueTokenPair {settings : Settings} {client : Client} {user : User}
    {familyId : Option String} {Q : TokenPair → Txn signature → Shared signature → Prop}
    (h : ∀ r x' s' pair, (accounts security unicode).Later x.held s s' →
      x'.pending = x.pending ++ [.refreshToken r] → (∀ l ∈ x.held, l ∈ x'.held) →
      (∃ q, x'.snapshots = x.snapshots ++ [q]) →
      pair.For security settings user.id s.ext.now s'.ext.now → Q pair x' s') :
    (accounts security unicode).Wp (service security unicode) j
      (issueTokenPair security settings client user familyId) Q x s := by
  refine Contract.Wp.bind (accounts_createJwtToken fun s₁ jti₁ h₁ => ?_)
  refine Contract.Wp.bind (accounts_createJwtToken fun s₂ jti₂ h₂ => ?_)
  refine Contract.Wp.now fun s₃ now h₃ => Contract.Wp.uuid fun id => ?_
  have h₂ : (accounts security unicode).Later x.held s₁ s₂ := h₂
  have h₃ : (accounts security unicode).Later x.held s₂ s₃ := h₃
  have hinsert (r : RefreshToken) (x₁ : Txn signature) (hpend : x₁.pending = x.pending)
      (hheld : x₁.held = x.held) (hsnap : x₁.snapshots = x.snapshots) :
      (accounts security unicode).Wp (service security unicode) j
        (exec (insertRefreshToken r) >>= fun _ => pure {
          accessToken := security.encode ⟨user.id, .access, jti₁, s₁.ext.now,
            s₁.ext.now + minutes settings.accessTokenExpireMinutes⟩
          refreshToken := security.encode ⟨user.id, .refresh, jti₂, s₂.ext.now,
            s₂.ext.now + days settings.refreshTokenExpireDays⟩
          expiresIn := settings.accessTokenExpireMinutes * 60 }) Q x₁ s₃ := by
    refine Contract.Wp.bind (accounts_exec fun s₄ h₄ blocked eff hq => ?_)
    rw [hheld] at h₄
    obtain ⟨-, rfl⟩ := insertRefreshToken_ok hq
    have h₂₄ := (h₂.trans h₃ fun _ hm => hm).trans h₄ fun _ hm => hm
    have h₁₄ := h₁.trans h₂₄ fun _ hm => hm
    have hnow₁ := (accountsKept_of_later h₁).2
    have hnow₂ := (accountsKept_of_later h₂).2
    have hnow₂₄ := (accountsKept_of_later (h₃.trans h₄ fun _ hm => hm)).2
    apply h r _ s₄ _ h₁₄
    · simp [Txn.executed, hpend]
    · intro l hl
      exact List.mem_append_left _ (hheld ▸ hl)
    · exact ⟨s₄, by simp [Txn.executed, hsnap]⟩
    · exact ⟨⟨jti₁, s₁.ext.now, hnow₁, hnow₂.trans hnow₂₄, rfl⟩,
        ⟨jti₂, s₂.ext.now, hnow₁.trans hnow₂, hnow₂₄, rfl⟩⟩
  dsimp only
  split
  · exact hinsert _ _ rfl rfl rfl
  · exact Contract.Wp.uuid fun i => hinsert _ _ rfl rfl rfl

/-! ## Registration and login -/

/-- The user a registration adds. -/
structure NewUser (security : Security) (unicode : Unicode) (request : RegisterRequest) (u : User)
    (x : Txn signature) (s : Shared signature) : Prop where
  email : u.email = normalizeEmail unicode request.email
  password : ∃ salt, u.passwordHash = security.hashPassword salt request.password
  role : u.role = .user
  isActive : u.isActive = true
  free : s.db.users.find? u.id = none
  lock : (.user u.id, .noKeyUpdate) ∈ x.held
  pending : x.pending = [.user u]
  snapshots : x.snapshots = [s]

theorem accounts_createUser {request : RegisterRequest}
    {Q : User → Txn signature → Shared signature → Prop}
    (h : ∀ u x s, NewUser security unicode request u x s → Q u x s) :
    (accounts security unicode).Wp (service security unicode) j
      (createUser security unicode request) Q {} s := by
  refine Contract.Wp.now fun s₁ now h₁ => Contract.Wp.uuid fun salt => Contract.Wp.uuid fun id => ?_
  refine Contract.Wp.bind (accounts_exec fun s₂ h₂ blocked eff hq => ?_)
  obtain rfl | ⟨hnew, -, rfl⟩ := insertUser_cases hq
  · trivial
  · exact h _ _ _ ⟨rfl, ⟨salt, rfl⟩, rfl, rfl, hnew, by simp [Txn.executed], rfl, rfl⟩

theorem accounts_register {settings : Settings} {client : Client} {payload : RegisterRequest} :
    (accounts security unicode).Ok (service security unicode) (.register settings client payload)
      (program security unicode (.register settings client payload)) {} s := by
  refine Contract.Wp.bind (Contract.Wp.bind (accounts_createUser fun u x s hnew => ?_))
  refine accounts_issueTokenPair fun r x' s₃ pair h₃ hpending hheld hsnap hfor => fun s₄ h₄ => ?_
  rw [hnew.pending] at hpending
  obtain ⟨q, hsnap⟩ := hsnap
  -- the new user is locked, so the id stays free
  have hfree := (user_of_later (h₃.trans h₄ hheld) hnew.lock).trans hnew.free
  refine ⟨fun v hv => ?_, fun pair' he => ?_⟩
  · rw [hpending] at hv
    obtain rfl : v = u := by simpa using hv
    exact .inl ⟨hfree, hnew.role, hnew.isActive⟩
  · obtain rfl := Result.tokens.inj he
    refine ⟨settings, u, s, rfl, ⟨hnew.email, hnew.password⟩, hnew.isActive, ?_,
      fun _ _ _ _ => hfree, ?_, hfor.mono security (le_refl _) (accountsKept_of_later h₄).2⟩
    · rw [hpending]
      exact Database.user_replay_last
    · rw [hsnap, hnew.snapshots]
      rfl

theorem accounts_login {settings : Settings} {client : Client} {payload : LoginRequest} :
    (accounts security unicode).Ok (service security unicode) (.login settings client payload)
      (program security unicode (.login settings client payload)) {} s := by
  refine Contract.Wp.bind (Contract.Wp.bind (Contract.Wp.bind ?_))
  refine accounts_exec fun s₁ h₁ blocked eff hq => ?_
  obtain rfl := Except.ok.inj hq
  split
  · trivial
  · next user huser =>
    split
    · trivial
    · next hverify =>
      refine Contract.Wp.now fun s₂ now h₂ => accounts_exec fun s₃ h₃ blocked eff hq => ?_
      obtain ⟨rfl, -⟩ | ⟨u, hu, rfl⟩ := updateLastLogin_cases hq
      · trivial
      · have hu : s₃.db.users.find? user.id = some u := hu
        -- the row is that of the account whose password was right
        have hfound := Table.find?_of_mem (List.mem_of_find?_eq_some huser)
        obtain ⟨u', hu', he⟩ :=
          (accountsKept_of_later (h₂.trans h₃ fun _ hm => hm)).1.kept _ user hfound
        obtain rfl : u = u' := Option.some.inj (hu.symm.trans hu')
        have hadmits : Job.Admits security unicode (.login settings client payload) user :=
          ⟨by simpa using List.find?_some huser, by simpa using hverify⟩
        dsimp only
        split
        · trivial
        · next user' huser' =>
          obtain ⟨he', hactive⟩ := Option.filter_eq_some_iff.mp huser'
          obtain rfl := Option.some.inj he'
          refine accounts_issueTokenPair fun r x s₄ pair h₄ hpending hheld hsnap hfor =>
            fun s₅ h₅ => ?_
          have hid : u.id = user.id := Table.key_of_find? hu
          have hlater := h₄.trans h₅ hheld
          have hrow : s₅.db.users.find? user.id = some u := by
            refine (user_of_later hlater ?_).trans hu
            simp [Txn.executed, hid]
          obtain ⟨q, hsnap⟩ := hsnap
          refine ⟨fun v hv => ?_, fun pair' he' => ?_⟩
          · rw [hpending] at hv
            obtain rfl : v = _ := by simpa [Txn.executed] using hv
            exact .inr ⟨u, hid ▸ hrow, rfl⟩
          · obtain rfl := Result.tokens.inj he'
            have hfirst := (accountsKept_of_later (h₂.trans h₃ fun _ hm => hm)).2
            refine ⟨settings, { u with lastLoginAt := some now, updatedAt := now }, s₁, rfl,
              hadmits.of_account security he, hactive, ?_, fun _ _ _ hj => (by cases hj), ?_,
              hfor.mono security hfirst (accountsKept_of_later h₅).2⟩
            · rw [hpending]
              exact Database.user_replay_last
            · rw [hsnap]
              rfl

/-! ## Rotation, logout and detection of reuse -/

theorem accounts_refresh {settings : Settings} {client : Client} {token : String} :
    (accounts security unicode).Ok (service security unicode) (.refresh settings client token)
      (program security unicode (.refresh settings client token)) {} s := by
  refine Contract.Wp.bind (Contract.Wp.clock fun s₁ h₁ => ?_)
  split
  · trivial
  · next p hdecode =>
    refine Contract.Wp.now fun s₂ now h₂ => Contract.Wp.bind ?_
    refine accounts_exec fun s₃ h₃ blocked eff hq => ?_
    have hwrites := updateRefreshToken_writes hq
    split
    · intro s₄ h₄
      exact ⟨trivial, ⟨trivial, ⟨.refl _, le_refl _⟩, trivial⟩, fun _ => trivial⟩
    · refine Contract.Wp.bind (accounts_exec fun s₄ h₄ blocked' eff' hq' => ?_)
      obtain rfl := Except.ok.inj hq'
      dsimp only
      split
      · trivial
      · next user huser =>
        refine accounts_issueTokenPair fun r x s₅ pair h₅ hpending hheld hsnap hfor =>
          fun s₆ h₆ => ?_
        obtain ⟨q, hsnap⟩ := hsnap
        have hnone : ∀ u, .user u ∉ x.pending := by
          intro u hu
          rw [hpending] at hu
          exact hwrites u (by simpa [Txn.executed] using hu)
        refine ⟨.of_forall_ne hnone, fun pair' he => ?_⟩
        obtain rfl := Result.tokens.inj he
        obtain ⟨hrow, hactive⟩ := Option.filter_eq_some_iff.mp huser
        -- what has been written so far is a token
        have hstored : s₄.db.users.find? p.sub = some user := by
          obtain ⟨hmem, -⟩ | hstored := Database.user_replay hrow
          · exact absurd hmem (by simpa [Txn.executed] using hwrites user)
          · exact hstored
        have hlater := h₅.trans h₆ hheld
        obtain ⟨u, hu, he⟩ := (accountsKept_of_later hlater).1.kept _ user hstored
        have hid : user.id = p.sub := Table.key_of_find? hstored
        obtain ⟨u', hu'⟩ := Database.exists_user_replay x.pending hu
        obtain rfl : u' = u := by
          obtain ⟨hmem, -⟩ | hold := Database.user_replay hu'
          · exact absurd hmem (hnone u')
          · exact Option.some.inj (hold.symm.trans hu)
        have huid : u'.id = user.id := User.id_of_account he
        have hadmits : Job.Admits security unicode (.refresh settings client token) user :=
          ⟨p, decodeJwtToken_ok hdecode, decodeJwtToken_type hdecode, hid⟩
        refine ⟨settings, u', s₃, rfl, hadmits.of_account security he,
          (User.isActive_of_account he).trans hactive, ?_, fun _ _ _ hj => (by cases hj), ?_, ?_⟩
        · rw [huid, hid]
          exact hu'
        · rw [hsnap]
          rfl
        · rw [huid]
          exact hfor.mono security (accountsKept_of_later h₄).2 (accountsKept_of_later h₆).2

theorem accounts_logout {token : String} :
    (accounts security unicode).Ok (service security unicode) (.logout token)
      (program security unicode (.logout token)) {} s := by
  refine Contract.Wp.bind (Contract.Wp.clock fun s₁ h₁ => ?_)
  split
  · trivial
  · refine Contract.Wp.now fun s₂ now h₂ => Contract.Wp.bind ?_
    refine accounts_exec fun s₃ h₃ blocked eff hq => fun s₄ h₄ => ⟨?_, fun pair he => by cases he⟩
    have hwrites := updateRefreshToken_writes hq
    exact .of_forall_ne fun u hu => hwrites u (by simpa [Txn.executed] using hu)

theorem accounts_detectRefreshReuse {check : ReuseCheck} :
    (accounts security unicode).Ok (service security unicode) (.detectRefreshReuse check)
      (program security unicode (.detectRefreshReuse check)) {} s := by
  have hdone (x : Txn signature) (s : Shared signature) (hx : ∀ u, .user u ∉ x.pending) :
      (accounts security unicode).AtCommit (.detectRefreshReuse check) .checked x s :=
    fun s' _ => ⟨.of_forall_ne hx, fun pair he => by cases he⟩
  refine Contract.Wp.bind (Contract.Wp.bind (accounts_exec fun s₁ h₁ blocked eff hq => ?_))
  obtain rfl := Except.ok.inj hq
  split
  · exact hdone _ _ (by simp [Txn.executed])
  · exact hdone _ _ (by simp [Txn.executed])
  · refine Contract.Wp.bind (accounts_exec fun s₂ h₂ blocked' eff' hq' => ?_)
    obtain rfl := Except.ok.inj hq'
    refine Contract.Wp.mono (fun _ x s hx => hdone x s hx)
      (Contract.Wp.forEach (I := fun _ (x : Txn signature) _ => ∀ u, Write.user u ∉ x.pending) ?_
        (by simp [Txn.executed]))
    refine fun done id _ x s hx => accounts_exec fun s' _ blocked eff hq u hu => ?_
    cases List.mem_append.mp hu with
    | inl hold => exact hx u hold
    | inr hnew => exact updateFamilyMember_writes hq u hnew

/-- Every session meets the contract. -/
theorem valid_accounts :
    (accounts security unicode).Valid (service security unicode) fun _ => True := by
  refine ⟨fun j _ s _ => ?_, fun j v x s _ _ _ _ h => ⟨⟨h.1.accountsKept, le_refl _⟩, trivial⟩,
    fun e s o _ ho => ⟨⟨.refl _, ?_⟩, trivial⟩⟩
  · cases j with
    | register => exact accounts_register
    | login => exact accounts_login
    | refresh => exact accounts_refresh
    | logout => exact accounts_logout
    | detectRefreshReuse => exact accounts_detectRefreshReuse
  · obtain rfl := Option.some.inj ho
    exact Int.le_add_of_nonneg_right (Int.natCast_nonneg e)

/-! ## Addresses -/

/-- The unique index of `users.email`. -/
def emails : UniqueIndex signature String where
  key := fun
    | .user u => some u.email
    | .refreshToken _ => none
  lock := .email

/-- No two users have one address. -/
def DistinctEmails (d : Database) : Prop :=
  ∀ u ∈ d.users.rows, ∀ u' ∈ d.users.rows, u.email = u'.email → u = u'

theorem holds_emails {email : String} {r : Row} {d : Database} :
    emails.Holds email r d ↔ ∃ u ∈ d.users.rows, r = .user u.id ∧ u.email = email := by
  constructor
  · rintro ⟨v, hv, hkey⟩
    cases v with
    | refreshToken => cases hkey
    | user u =>
      cases r with
      | email | refreshToken => simp [Database.row] at hv
      | user id =>
        have hu : d.users.find? id = some u := by simpa [Database.row] using hv
        refine ⟨u, Table.mem_of_find? hu, ?_, Option.some.inj hkey⟩
        rw [Table.key_of_find? hu]
  · rintro ⟨u, hu, rfl, rfl⟩
    exact ⟨.user u, by simp [Database.row, Table.find?_of_mem hu], rfl⟩

theorem unique_emails_iff {d : Database} : emails.Unique d ↔ DistinctEmails d := by
  constructor
  · intro h u hu u' hu' he
    have hid := h u.email (.user u.id) (.user u'.id) (holds_emails.mpr ⟨u, hu, rfl, rfl⟩)
      (holds_emails.mpr ⟨u', hu', rfl, he.symm⟩)
    exact Table.eq_of_key hu hu' (Row.user.inj hid)
  · intro h email r r' hr hr'
    obtain ⟨u, hu, rfl, he⟩ := holds_emails.mp hr
    obtain ⟨u', hu', rfl, he'⟩ := holds_emails.mp hr'
    rw [h u hu u' hu' (he.trans he'.symm)]

section Indexes

variable {β : Type}

/-- Statements that write no user. -/
theorem indexes_exec {q : Statement β} (h : ∀ blocked d eff, q blocked d = .ok eff →
    ∀ u, .user u ∉ eff.writes) : (exec q : Handler β).Indexes emails := by
  refine .exec_free fun blocked d eff hq v hv => ?_
  cases v with
  | user u => exact absurd hv (h blocked d eff hq u)
  | refreshToken r => rfl

theorem indexes_read {f : Database → β} :
    (exec (fun _ d => .ok { value := f d }) : Handler β).Indexes emails := by
  refine indexes_exec fun blocked d eff hq => ?_
  obtain rfl := Except.ok.inj hq
  simp

theorem indexes_insertUser (u : User) : (exec (insertUser u) : Handler _).Indexes emails := by
  refine .exec fun blocked d eff hq => ?_
  obtain rfl | ⟨-, hfree, rfl⟩ := insertUser_cases hq
  · trivial
  · refine ⟨fun email he => ?_, trivial⟩
    obtain rfl := Option.some.inj he
    refine .inr ⟨fun r hr => ?_, List.mem_cons_self⟩
    obtain ⟨u', hu', -, he'⟩ := holds_emails.mp hr
    exact hfree u' hu' he'

theorem indexes_updateLastLogin (id : String) (now : Timestamp) :
    (exec (updateLastLogin id now) : Handler _).Indexes emails := by
  refine .exec fun blocked d eff hq => ?_
  obtain ⟨rfl, -⟩ | ⟨u, hu, rfl⟩ := updateLastLogin_cases hq
  · trivial
  · refine ⟨fun email he => .inl ⟨.user u.id, rfl, ?_⟩, trivial⟩
    exact holds_emails.mpr ⟨u, Table.mem_of_find? hu, rfl, Option.some.inj he⟩

theorem indexes_createJwtToken (subject : String) (tokenType : TokenType) (expiresDelta : ℤ) :
    (createJwtToken security subject tokenType expiresDelta).Indexes emails :=
  .now fun _ => .uuid fun _ => trivial

theorem indexes_issueTokenPair (settings : Settings) (client : Client) (user : User)
    (familyId : Option String) :
    (issueTokenPair security settings client user familyId).Indexes emails := by
  have hinsert (r : RefreshToken) (pair : TokenPair) :
      (exec (insertRefreshToken r) >>= fun _ => pure pair : Handler TokenPair).Indexes emails := by
    refine .bind (indexes_exec fun blocked d eff hq => ?_) fun _ => trivial
    obtain ⟨-, rfl⟩ := insertRefreshToken_ok hq
    simp
  refine .bind (indexes_createJwtToken _ _ _) fun access => ?_
  refine .bind (indexes_createJwtToken _ _ _) fun refresh => .now fun now => .uuid fun id => ?_
  split
  · exact hinsert _ _
  · exact .uuid fun i => hinsert _ _

theorem indexes_register (settings : Settings) (client : Client) (payload : RegisterRequest) :
    (register security unicode settings client payload).Indexes emails := by
  refine .bind (.now fun now => .uuid fun salt => .uuid fun id =>
    .bind (indexes_insertUser _) fun user => ?_) fun user => indexes_issueTokenPair _ _ user none
  cases user with
  | none => trivial
  | some user => trivial

theorem indexes_login (settings : Settings) (client : Client) (payload : LoginRequest) :
    (login security unicode settings client payload).Indexes emails := by
  refine .bind (.bind indexes_read fun found => ?_) fun user => ?_
  · split
    · trivial
    · split
      · trivial
      · exact .now fun now => indexes_updateLastLogin _ _
  · split
    · trivial
    · exact indexes_issueTokenPair _ _ _ none

theorem indexes_rotateRefreshToken (settings : Settings) (client : Client) (token : String) :
    (rotateRefreshToken security settings client token).Indexes emails := by
  refine .now fun now => ?_
  split
  · trivial
  · refine .now fun now => .bind (indexes_exec fun _ _ _ hq => updateRefreshToken_writes hq)
      fun familyId => ?_
    split
    · exact .request fun _ => trivial
    · refine .bind indexes_read fun user => ?_
      split
      · trivial
      · exact indexes_issueTokenPair _ _ _ _

theorem indexes_revokeRefreshToken (token : String) :
    (revokeRefreshToken security token).Indexes emails := by
  refine .now fun now => ?_
  split
  · trivial
  · exact .now fun now => .bind (indexes_exec fun _ _ _ hq => updateRefreshToken_writes hq)
      fun _ => trivial

theorem indexes_detectRefreshReuse (check : ReuseCheck) :
    (detectRefreshReuse check).Indexes emails := by
  refine .bind indexes_read fun found => ?_
  split
  · trivial
  · trivial
  · exact .bind indexes_read fun ids => .forEach
      (fun _ => indexes_exec fun _ _ _ hq => updateFamilyMember_writes hq) ids

theorem indexes_program (j : Job) : (program security unicode j).Indexes emails := by
  cases j with
  | register => exact .bind (indexes_register _ _ _) fun _ => trivial
  | login => exact .bind (indexes_login _ _ _) fun _ => trivial
  | refresh => exact .bind (indexes_rotateRefreshToken _ _ _) fun _ => trivial
  | logout => exact .bind (indexes_revokeRefreshToken _) fun _ => trivial
  | detectRefreshReuse => exact .bind (indexes_detectRefreshReuse _) fun _ => trivial

end Indexes

/-! ## Histories -/

section Histories

variable {start : Shared signature} {tr : List (Transition signature)} {w : World signature}

/-- No two users ever have one address. -/
theorem emails_unique (hs : DistinctEmails start.db)
    (hr : Run (service security unicode) start tr w) : DistinctEmails w.shared.db :=
  unique_emails_iff.mp (hr.unique_keys (fun _ => rfl) indexes_program (unique_emails_iff.mpr hs))

/-- What any part of a history leaves of the users. -/
theorem accounts_kept {late early : List (Transition signature)} {x : Transition signature}
    (hr : Run (service security unicode) start (late ++ x :: early) w) :
    AccountsKept x.after.shared.db w.shared.db ∧ x.after.shared.ext.now ≤ w.shared.ext.now :=
  (valid_accounts.leads trivial hr fun _ _ _ _ _ => trivial).lift
    (r := fun s s' : Shared signature => AccountsKept s.db s'.db ∧ s.ext.now ≤ s'.ext.now)
    (fun s => ⟨.refl s.db, le_refl _⟩) (fun _ _ _ h h' => ⟨h.1.trans h'.1, h.2.trans h'.2⟩)
    fun _ _ hg => hg

/-- Whoever gets tokens has an account. -/
theorem granted_of_commits (hr : Run (service security unicode) start tr w)
    {x : Transition signature} (hx : x ∈ tr) {s : Session signature} {pair : TokenPair}
    (hc : x.Commits s (.tokens pair)) :
    Granted security unicode s.job pair s.txn x.before.shared ∧
      x.after.shared = ⟨replay s.txn.pending x.before.shared.db, x.before.shared.ext⟩ := by
  obtain ⟨hpost, -, he⟩ :=
    valid_accounts.commits trivial hr (fun _ _ _ _ _ => trivial) hx hc rfl
  exact ⟨hpost.2 pair rfl, he⟩

end Histories

end MoneyWay.Auth
