import MoneyWay.Library.ReadCommitted.System
import MoneyWay.Schema

/-!
# Users and refresh tokens

The two tables of the authentication. `jwt_id` is unique among the refresh tokens and
identifies the row here; nothing refers to its primary key. The token itself is not stored,
only its hash. The tokens of one session form a family.

## Main definitions

- `User`, `RefreshToken` — the rows
- `Database`, `Write`, `Row` — the tables, the row images and what can be locked
- `Job` — the requests, and the detection of a reused token
-/

set_option autoImplicit false

namespace MoneyWay.Auth

open Keyed ReadCommitted

inductive UserRole where
  | user
  | admin
  deriving DecidableEq, Repr

structure User where
  id : String
  email : String
  passwordHash : String
  fullName : Option String
  bingxUid : Option String
  role : UserRole
  isActive : Bool
  isVerified : Bool
  createdAt : Timestamp
  updatedAt : Timestamp
  lastLoginAt : Option Timestamp
  deriving DecidableEq, Repr

structure RefreshToken where
  id : String
  userId : String
  jwtId : String
  tokenHash : String
  familyId : String
  expiresAt : Timestamp
  revokedAt : Option Timestamp
  createdByIp : Option String
  userAgent : Option String
  createdAt : Timestamp
  updatedAt : Timestamp
  deriving DecidableEq, Repr

structure Database where
  users : Table User.id
  refreshTokens : Table RefreshToken.jwtId

/-- The row image a statement leaves. -/
inductive Write where
  | user (r : User)
  | refreshToken (r : RefreshToken)
  deriving DecidableEq

/-- What can be locked: the rows, and the addresses users have. -/
inductive Row where
  | user (id : String)
  | email (email : String)
  | refreshToken (jwtId : String)
  deriving DecidableEq, Repr

/-- The row a write locks. -/
@[simp] def Write.target : Write → Option Row
  | .user r => some (.user r.id)
  | .refreshToken r => some (.refreshToken r.jwtId)

namespace Database

@[simp] def apply (w : Write) (d : Database) : Database :=
  match w with
  | .user r => { d with users := d.users.put r }
  | .refreshToken r => { d with refreshTokens := d.refreshTokens.put r }

/-- The image of a row, `none` when there is no such row. -/
def row (d : Database) : Row → Option Write
  | .user id => (d.users.find? id).map .user
  | .refreshToken jwtId => (d.refreshTokens.find? jwtId).map .refreshToken
  | .email _ => none

/-- A write leaves all rows but its own as they are. -/
theorem row_apply (w : Write) (r : Row) (d : Database) (h : w.target ≠ some r) :
    (d.apply w).row r = d.row r := by
  cases w <;> cases r <;> try rfl
  all_goals
    simp only [Write.target, ne_eq, Option.some.injEq, Row.user.injEq, Row.refreshToken.injEq] at h
    simp only [apply, row, Table.find?_put_ne _ h]

/-- A write leaves its own image in its row. -/
theorem row_apply_self (w : Write) (r : Row) (d : Database) (h : w.target = some r) :
    (d.apply w).row r = if false = true then none else some w := by
  cases w <;> simp only [Write.target, Option.some.injEq] at h <;> subst h <;>
    simp only [apply, row, Table.find?_put_self, Option.map_some, Bool.false_eq_true, if_false]

end Database

instance : Store Database Write Row where
  apply := fun w d => d.apply w
  target := Write.target
  removes := fun _ => false
  row := fun r d => d.row r
  row_apply := Database.row_apply
  row_apply_self := Database.row_apply_self

@[simp] theorem store_apply (w : Write) (d : Database) : Store.apply w d = d.apply w := rfl

@[simp] theorem store_target (w : Write) : Store.target (D := Database) w = w.target := rfl

@[simp] theorem store_row (r : Row) (d : Database) : Store.row r d = d.row r := rfl

namespace Database

variable {d d' : Database} {id : String}

theorem row_refreshToken (h : d'.row (.refreshToken id) = d.row (.refreshToken id)) :
    d'.refreshTokens.find? id = d.refreshTokens.find? id :=
  Option.map_injective (fun _ _ => Write.refreshToken.inj) h

/-- A token after a list of writes has been written or was there before. -/
theorem refreshToken_replay {ws : List Write} {r : RefreshToken}
    (h : (replay ws d).refreshTokens.find? id = some r) :
    .refreshToken r ∈ ws ∧ r.jwtId = id ∨
      d.refreshTokens.find? id = some r ∧ ∀ r', .refreshToken r' ∈ ws → r'.jwtId ≠ id := by
  have hr : Store.row (.refreshToken id) (replay ws d) = some (.refreshToken r) := by
    simp only [store_row, row, h, Option.map_some]
  rcases row_replay_cases hr with ⟨hw, ht⟩ | ⟨hd, hn⟩
  · exact .inl ⟨hw, by simpa [Write.target] using ht⟩
  · refine .inr ⟨by simpa [row] using hd, fun r' hr' he => hn _ hr' ?_⟩
    simp [Write.target, he]

/-- A token that is not written stays as it is. -/
theorem refreshToken_untouched {ws : List Write} (h : ∀ r, .refreshToken r ∈ ws → r.jwtId ≠ id) :
    (replay ws d).refreshTokens.find? id = d.refreshTokens.find? id := by
  refine row_refreshToken (row_replay (D := Database) fun w hw ht => ?_)
  cases w with
  | user r => simp at ht
  | refreshToken r => exact h r hw (by simpa using ht)

/-- Writes keep every token in the table. -/
theorem exists_refreshToken_replay (ws : List Write) {r : RefreshToken}
    (h : d.refreshTokens.find? id = some r) :
    ∃ r', (replay ws d).refreshTokens.find? id = some r' := by
  have hr : (Store.row (.refreshToken id) (replay ws d)).isSome = true :=
    isSome_row_replay (fun _ _ _ => rfl) (by simp [row, h])
  simpa [row, Option.isSome_iff_exists] using hr

end Database

structure RegisterRequest where
  email : String
  password : String
  fullName : Option String
  bingxUid : Option String

structure LoginRequest where
  email : String
  password : String

/-- Where a request comes from: `client_ip` and the header `user-agent`. -/
structure Client where
  ip : Option String
  userAgent : Option String

/-- The parameters of `_detect_refresh_reuse`. -/
structure ReuseCheck where
  jwtId : String
  tokenHash : String
  userId : String
  now : Timestamp
  deriving DecidableEq

/-- The part of the settings that concerns tokens. -/
structure Settings where
  accessTokenExpireMinutes : ℤ
  refreshTokenExpireDays : ℤ

inductive Error where
  | unauthorized (detail : String)
  | conflict (detail : String)
  | uniqueViolation
  | foreignKeyViolation
  deriving DecidableEq, Repr

/-- What a session can run. A reused token is dealt with in a transaction of its own. -/
inductive Job where
  | register (settings : Settings) (client : Client) (payload : RegisterRequest)
  | login (settings : Settings) (client : Client) (payload : LoginRequest)
  | refresh (settings : Settings) (client : Client) (refreshToken : String)
  | logout (refreshToken : String)
  | detectRefreshReuse (check : ReuseCheck)

structure TokenPair where
  accessToken : String
  refreshToken : String
  tokenType : String := "bearer"
  expiresIn : ℤ
  deriving DecidableEq, Repr

inductive Result where
  | tokens (pair : TokenPair)
  | message (detail : String)
  | checked
  deriving DecidableEq, Repr

/-- The world outside the database: the clock, and the checks refreshes have asked for. -/
structure Outside where
  now : Timestamp
  checks : List ReuseCheck

abbrev signature : Signature where
  Db := Database
  Write := Write
  Row := Row
  Request := ReuseCheck
  Answer := Unit
  Error := Error
  Ident := String
  External := Outside
  Event := ℕ
  Job := Job
  Result := Result

abbrev Handler := Prog signature

abbrev Statement (β : Type) := Stmt Database Write Row Error β

end MoneyWay.Auth
