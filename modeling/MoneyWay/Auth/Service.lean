import MoneyWay.Admin
import MoneyWay.Auth.Schema

/-!
# Registration, login, rotation and logout

The handlers of the authentication and their SQL statements. Tokens and passwords are the
business of other libraries, so what these do is a parameter.

An `UPDATE` of one row by its key runs on the row as it is once the lock is granted, which
is what `READ COMMITTED` checks again. The `UPDATE` of a family finds its rows first, as
they were committed when it started, and then locks and checks one after the other; a row
that is committed in between is not among them.
-/

set_option autoImplicit false

namespace MoneyWay.Auth

open Keyed ReadCommitted Python Prog

inductive TokenType where
  | access
  | refresh
  deriving DecidableEq, Repr

/-- The claims of a token that are not the same for all. -/
structure Payload where
  sub : String
  type : TokenType
  jti : String
  iat : Timestamp
  exp : Timestamp
  deriving DecidableEq, Repr

/-- JWT, HMAC and Argon2 under the keys of the service. `payload?` is what a token says, if
its signature, issuer and audience are right, and `timely` whether its times are. -/
structure Security where
  encode : Payload → String
  payload? : String → Option Payload
  timely : Payload → Timestamp → Bool
  hashToken : String → String
  hashPassword : (salt : String) → String → String
  verifyPassword : String → (hash : String) → Bool

variable (security : Security)

namespace Sql

/-- `SELECT … FROM users WHERE id = $1`. -/
def selectUser (id : String) : Statement (Option User) := fun _ d =>
  .ok { value := d.users.find? id }

/-- `SELECT … FROM users WHERE email = $1`. -/
def selectUserByEmail (email : String) : Statement (Option User) := fun _ d =>
  .ok { value := d.users.rows.find? fun u => u.email = email }

/-- `INSERT INTO users`, `none` when the address or the id is taken. -/
def insertUser (u : User) : Statement (Option User) := fun _ d =>
  if (d.users.find? u.id).isSome || d.users.rows.any fun u' => u'.email = u.email then
    .ok { value := none, locks := [(.email u.email, .noKeyUpdate)] }
  else
    .ok {
      value := some u
      writes := [.user u]
      locks := [(.email u.email, .noKeyUpdate)] }

/-- `UPDATE users SET last_login_at = $2 … WHERE id = $1 RETURNING`. -/
def updateLastLogin (id : String) (now : Timestamp) : Statement (Option User) := fun _ d =>
  match d.users.find? id with
  | none => .ok { value := none }
  | some u =>
    let u' := { u with lastLoginAt := some now, updatedAt := now }
    .ok { value := some u', writes := [.user u'] }

/-- `INSERT INTO refresh_tokens`. -/
def insertRefreshToken (r : RefreshToken) : Statement Unit := fun _ d =>
  if (d.refreshTokens.find? r.jwtId).isSome ||
      d.refreshTokens.rows.any fun r' => r'.id = r.id || r'.tokenHash = r.tokenHash then
    .error .uniqueViolation
  else if (d.users.find? r.userId).isNone then .error .foreignKeyViolation
  else
    .ok {
      value := ()
      writes := [.refreshToken r]
      locks := [(.user r.userId, .keyShare)] }

end Sql

/-- `SET revoked_at = $4, updated_at = $4`. -/
def RefreshToken.revoke (now : Timestamp) (r : RefreshToken) : RefreshToken :=
  { r with revokedAt := some now, updatedAt := now }

namespace Sql

/-- `UPDATE refresh_tokens SET revoked_at = $4 … WHERE jwt_id = $1 AND token_hash = $2 AND
user_id = $3 AND revoked_at IS NULL AND condition RETURNING family_id`. -/
def updateRefreshToken (jwtId tokenHash userId : String) (now : Timestamp)
    (condition : RefreshToken → Bool) : Statement (Option String) := fun _ d =>
  match d.refreshTokens.find? jwtId with
  | none => .ok { value := none }
  | some r =>
    if r.tokenHash = tokenHash ∧ r.userId = userId ∧ r.revokedAt = none ∧ condition r = true then
      .ok { value := some r.familyId, writes := [.refreshToken (r.revoke now)] }
    else .ok { value := none }

/-- `SELECT family_id, revoked_at FROM refresh_tokens WHERE jwt_id = $1 AND token_hash = $2 AND
user_id = $3`. -/
def selectRefreshToken (jwtId tokenHash userId : String) :
    Statement (Option (String × Option Timestamp)) := fun _ d =>
  .ok { value :=
    ((d.refreshTokens.find? jwtId).filter fun r =>
      r.tokenHash = tokenHash ∧ r.userId = userId).map fun r => (r.familyId, r.revokedAt) }

/-- The rows `UPDATE refresh_tokens … WHERE family_id = $1 AND revoked_at IS NULL` sees. -/
def selectFamily (familyId : String) : Statement (List String) := fun _ d =>
  .ok { value :=
    (d.refreshTokens.rows.filter fun r =>
      r.familyId = familyId ∧ r.revokedAt = none).map (·.jwtId) }

/-- One of its rows: locked, and written if the condition still holds. -/
def updateFamilyMember (jwtId familyId : String) (now : Timestamp) : Statement Unit := fun _ d =>
  match d.refreshTokens.find? jwtId with
  | none => .ok { value := () }
  | some r =>
    if r.familyId = familyId ∧ r.revokedAt = none then
      .ok { value := (), writes := [.refreshToken (r.revoke now)] }
    else .ok { value := (), locks := [(.refreshToken jwtId, .noKeyUpdate)] }

end Sql

open Auth.Sql

def raise {α : Type} (e : Error) : Handler α := .throw e

/-! ## Tokens -/

def minutes (n : ℤ) : ℤ := n * 60 * 10 ^ 6

def days (n : ℤ) : ℤ := n * 24 * 60 * 60 * 10 ^ 6

/-- The token, its id and its end. -/
def createJwtToken (subject : String) (tokenType : TokenType) (expiresDelta : ℤ) :
    Handler (String × String × Timestamp) := do
  let now ← Prog.now
  let expiresAt := now + expiresDelta
  let jti ← uuid
  return (security.encode ⟨subject, tokenType, jti, now, expiresAt⟩, jti, expiresAt)

def decodeJwtToken (token : String) (expectedType : TokenType) (now : Timestamp) :
    Except Error Payload :=
  match (security.payload? token).filter fun p => security.timely p now with
  | none => .error (.unauthorized "Invalid or expired token")
  | some payload =>
    if payload.type ≠ expectedType then .error (.unauthorized "Invalid token type")
    else .ok payload

def truncateIp (ip : Option String) : Option String := (ip.filter (· ≠ "")).map (slice 64)

def truncateUserAgent (userAgent : Option String) : Option String :=
  (userAgent.filter (· ≠ "")).map (slice 512)

/-- An access token, and a refresh token whose hash is stored: of the given family, or of a
new one. -/
def issueTokenPair (settings : Settings) (client : Client) (user : User)
    (familyId : Option String) : Handler TokenPair := do
  let (accessToken, _, _) ← createJwtToken security user.id .access
    (minutes settings.accessTokenExpireMinutes)
  let (refreshToken, jti, expiresAt) ← createJwtToken security user.id .refresh
    (days settings.refreshTokenExpireDays)
  let now ← Prog.now
  let id ← uuid
  let familyId ← match familyId.filter (· ≠ "") with
    | some familyId => pure familyId
    | none => uuid
  exec (insertRefreshToken {
    id
    userId := user.id
    jwtId := jti
    tokenHash := security.hashToken refreshToken
    familyId
    expiresAt
    revokedAt := none
    createdByIp := truncateIp client.ip
    userAgent := truncateUserAgent client.userAgent
    createdAt := now
    updatedAt := now })
  return { accessToken, refreshToken, expiresIn := settings.accessTokenExpireMinutes * 60 }

/-! ## Requests -/

def createUser (unicode : Unicode) (r : RegisterRequest) : Handler User := do
  let now ← Prog.now
  let salt ← uuid
  let id ← uuid
  match ← exec (insertUser {
    id
    email := normalizeEmail unicode r.email
    passwordHash := security.hashPassword salt r.password
    fullName := r.fullName
    bingxUid := r.bingxUid
    role := .user
    isActive := true
    isVerified := false
    createdAt := now
    updatedAt := now
    lastLoginAt := none }) with
  | none => raise (.conflict "User with this email already exists")
  | some user => return user

def register (unicode : Unicode) (settings : Settings) (client : Client)
    (payload : RegisterRequest) : Handler TokenPair := do
  let user ← createUser security unicode payload
  issueTokenPair security settings client user none

def authenticateUser (unicode : Unicode) (r : LoginRequest) : Handler (Option User) := do
  match ← exec (selectUserByEmail (normalizeEmail unicode r.email)) with
  | none => return none
  | some user =>
    if security.verifyPassword r.password user.passwordHash = false then return none
    let now ← Prog.now
    exec (updateLastLogin user.id now)

def login (unicode : Unicode) (settings : Settings) (client : Client) (payload : LoginRequest) :
    Handler TokenPair := do
  match (← authenticateUser security unicode payload).filter (·.isActive) with
  | none => raise (.unauthorized "Invalid email or password")
  | some user => issueTokenPair security settings client user none

/-- Revoke the token and issue the next pair of its session. A token that is not active is
handed to the detection of reuse, in a transaction of its own, as this one is rolled back. -/
def rotateRefreshToken (settings : Settings) (client : Client) (refreshToken : String) :
    Handler TokenPair := do
  match decodeJwtToken security refreshToken .refresh (← Prog.now) with
  | .error e => raise e
  | .ok payload =>
    let tokenHash := security.hashToken refreshToken
    let now ← Prog.now
    match ← exec (updateRefreshToken payload.jti tokenHash payload.sub now
      fun r => decide (now < r.expiresAt)) with
    | none =>
      let _ ← Prog.request ⟨payload.jti, tokenHash, payload.sub, now⟩
      raise (.unauthorized "Refresh token is not active")
    | some familyId =>
      match (← exec (selectUser payload.sub)).filter (·.isActive) with
      | none => raise (.unauthorized "User is not active")
      | some user => issueTokenPair security settings client user (some familyId)

/-- A revoked token that comes again: the whole family is revoked. -/
def detectRefreshReuse (check : ReuseCheck) : Handler Unit := do
  match ← exec (selectRefreshToken check.jwtId check.tokenHash check.userId) with
  | none => return
  | some (_, none) => return
  | some (familyId, some _) =>
    let jwtIds ← exec (selectFamily familyId)
    forEach jwtIds fun jwtId => exec (updateFamilyMember jwtId familyId check.now)

def revokeRefreshToken (refreshToken : String) : Handler Unit := do
  match decodeJwtToken security refreshToken .refresh (← Prog.now) with
  | .error e => raise e
  | .ok payload =>
    let now ← Prog.now
    let _ ← exec (updateRefreshToken payload.jti (security.hashToken refreshToken) payload.sub now
      fun _ => true)
    return

/-! ## The system -/

/-- The code a job runs. -/
def program (unicode : Unicode) : Job → Handler Result
  | .register settings client payload => do
    return .tokens (← register security unicode settings client payload)
  | .login settings client payload => do
    return .tokens (← login security unicode settings client payload)
  | .refresh settings client refreshToken => do
    return .tokens (← rotateRefreshToken security settings client refreshToken)
  | .logout refreshToken => do
    revokeRefreshToken security refreshToken
    return .message "Logged out"
  | .detectRefreshReuse check => do
    detectRefreshReuse check
    return .checked

/-- Every job is one transaction. Time passes outside, and refreshes ask for checks. -/
def service (unicode : Unicode) : System signature where
  program := program security unicode
  autocommit := fun _ => false
  send := fun check o => { o with checks := o.checks ++ [check] }
  now := Outside.now
  event := fun delta o => some { o with now := o.now + delta }

end MoneyWay.Auth
