import MoneyWay.Interface
import MoneyWay.Library.Decimal.Value

/-!
# The secret of the webhooks

The validators of the settings, and the check both webhooks make before their handlers.

## Main definitions

- `RawSettings`, `AppSettings` — what the environment gives, and what the validators accept
- `verifyWebhookSecret` — the check
- `Exact` — it lets in the configured secret and nothing else

## Main results

- `verify_webhook_secret_exact_iff` — when the check is exact
-/

set_option autoImplicit false

namespace MoneyWay

open Python

/-! ## The settings -/

/-- The settings that the validators read. -/
structure RawSettings where
  environment : String := "local"
  secretKey : String := "dev-only-change-me"
  jwtAlgorithm : String := "HS256"
  accessTokenExpireMinutes : ℤ := 15
  refreshTokenExpireDays : ℤ := 30
  depositMinRub : Decimal := .ofNat 5000
  depositMaxRub : Decimal := .ofNat 50000
  depositCommissionPercent : Decimal := .ofNat 2
  rubUsdtRate : Decimal := .ofNat 100
  webhookSecret : Option String := none
  adminEnabled : Bool := false
  adminSessionSecret : Option String := none

/-- A text that is set and not empty. -/
def given (text : Option String) : Option String := text.filter (· ≠ "")

/-- A check of a validator, with its message. -/
def require (ok : Prop) [Decidable ok] (message : String) : Except String Unit :=
  if ok then .ok () else .error message

def validateJwtAlgorithm (value : String) : Except String Unit :=
  require (value ∈ ["HS256", "HS384", "HS512"])
    "JWT_ALGORITHM must be one of HS256, HS384, HS512."

def validateRate (value : Decimal) : Except String Unit :=
  require (¬ value ≤ .ofNat 0) "RUB_USDT_RATE must be positive."

def validateCommission (value : Decimal) : Except String Unit :=
  require (.ofNat 0 ≤ value ∧ value < .ofNat 100) "DEPOSIT_COMMISSION_PERCENT must be in [0, 100)."

namespace RawSettings

variable (unicode : Unicode) (s : RawSettings)

/-- `local` or `test`, where the secrets may be the defaults. -/
def isInsecureEnv : Bool := ["local", "test"].contains (unicode.lower s.environment)

/-- The secrets are required everywhere but in `local` and `test`. -/
def validateSecrets : Except String Unit :=
  if s.isInsecureEnv unicode then .ok ()
  else do
    require (¬ (s.secretKey = "dev-only-change-me" ∨ s.secretKey.length < 32))
      "SECRET_KEY must be a long random value outside local/test."
    require ((given s.webhookSecret).isSome) "WEBHOOK_SECRET must be set outside local/test."
    require (¬ (s.adminEnabled ∧ (given s.adminSessionSecret).isNone))
      "ADMIN_SESSION_SECRET must be set when admin panel is enabled."

def validateSecureProductionSettings : Except String Unit := do
  s.validateSecrets unicode
  require (¬ (s.depositMinRub ≤ .ofNat 0 ∨ s.depositMaxRub < s.depositMinRub))
    "DEPOSIT_MIN_RUB must be > 0 and <= DEPOSIT_MAX_RUB."
  require (¬ (s.accessTokenExpireMinutes ≤ 0 ∨ s.refreshTokenExpireDays ≤ 0))
    "Token lifetimes must be positive."

/-- The validators of the fields, and then the one of all of them. -/
def validate : Except String Unit := do
  validateJwtAlgorithm s.jwtAlgorithm
  validateCommission s.depositCommissionPercent
  validateRate s.rubUsdtRate
  s.validateSecureProductionSettings unicode

end RawSettings

/-- Settings that the validators accept. -/
structure AppSettings (unicode : Unicode) extends RawSettings where
  accepted : toRawSettings.validate unicode = .ok ()

variable {unicode : Unicode}

theorem of_require {ok : Prop} [Decidable ok] {message : String}
    (h : require ok message = .ok ()) : ok := by
  by_contra hno
  rw [require, if_neg hno] at h
  cases h

theorem of_bind_ok {a b : Except String Unit} (h : (a >>= fun _ => b) = .ok ()) :
    a = .ok () ∧ b = .ok () := by
  cases a with
  | error e => cases h
  | ok v => exact ⟨rfl, h⟩

/-- The defaults are accepted. -/
theorem accepted_defaults : ({} : RawSettings).validate unicode = .ok () := by
  have hlower : unicode.lower "local" = "local" := by
    have hascii : "local".toList.all (fun c => c.toNat < 128) = true := by decide
    rw [unicode.lower_ascii "local" fun c hc => of_decide_eq_true (List.all_eq_true.mp hascii c hc)]
    decide
  have henv : ({} : RawSettings).isInsecureEnv unicode = true := by
    show ["local", "test"].contains (unicode.lower "local") = true
    rw [hlower]
    decide
  have hsecrets : ({} : RawSettings).validateSecrets unicode = .ok () := if_pos henv
  rw [RawSettings.validate, RawSettings.validateSecureProductionSettings, hsecrets]
  rfl

namespace AppSettings

variable (s : AppSettings unicode)

theorem commission : .ofNat 0 ≤ s.depositCommissionPercent ∧
    s.depositCommissionPercent < .ofNat 100 :=
  of_require (of_bind_ok (of_bind_ok s.accepted).2).1

theorem rate : .ofNat 0 < s.rubUsdtRate := by
  have hrate : ¬ s.rubUsdtRate ≤ .ofNat 0 :=
    of_require (of_bind_ok (of_bind_ok (of_bind_ok s.accepted).2).2).1
  rw [Decimal.le_iff_value, not_le] at hrate
  exact Decimal.lt_iff_value.mpr hrate

theorem secure : s.validateSecureProductionSettings unicode = .ok () :=
  (of_bind_ok (of_bind_ok (of_bind_ok s.accepted).2).2).2

theorem limits : .ofNat 0 < s.depositMinRub ∧ s.depositMinRub ≤ s.depositMaxRub := by
  have hlimits := of_require (of_bind_ok (of_bind_ok s.secure).2).1
  rw [not_or, Decimal.le_iff_value, Decimal.lt_iff_value, not_le, not_lt] at hlimits
  exact ⟨Decimal.lt_iff_value.mpr hlimits.1, Decimal.le_iff_value.mpr hlimits.2⟩

/-- Outside `local` and `test` there is a secret. -/
theorem secret_of_secure_env (h : s.isInsecureEnv unicode = false) :
    (given s.webhookSecret).isSome = true := by
  have hsecrets := (of_bind_ok s.secure).1
  have hsecure : ¬ s.isInsecureEnv unicode = true := by
    rw [h]
    exact Bool.false_ne_true
  rw [RawSettings.validateSecrets, if_neg hsecure] at hsecrets
  exact of_require (of_bind_ok (of_bind_ok hsecrets).2).1

/-- What a deposit needs of the settings. -/
def deposits : Settings where
  depositMinRub := s.depositMinRub
  depositMaxRub := s.depositMaxRub
  depositCommissionPercent := s.depositCommissionPercent
  rubUsdtRate := s.rubUsdtRate
  limits := s.limits
  commission_range := s.commission
  rate_positive := s.rate

end AppSettings

/-! ## The check -/

/-- How a request ends that does not reach its handler. -/
inductive Refusal where
  | unauthorized (detail : String)
  | serviceUnavailable (detail : String)
  | typeError (message : String)
  deriving DecidableEq, Repr

/-- The status of the answer; an exception that nobody expects gives 500. -/
def Refusal.status : Refusal → ℕ
  | .unauthorized _ => 401
  | .serviceUnavailable _ => 503
  | .typeError _ => 500

def isAscii (text : String) : Bool := text.toList.all fun c => c.toNat < 128

/-- `hmac.compare_digest` of two strings. -/
def compareDigest (a b : String) : Except Refusal Bool :=
  if isAscii a && isAscii b then .ok (a == b)
  else .error (.typeError "comparing strings with non-ASCII characters is not supported")

def verifyWebhookSecret (unicode : Unicode) (settings : RawSettings)
    (providedSecret : Option String) : Except Refusal Unit :=
  match given settings.webhookSecret with
  | none =>
    if settings.isInsecureEnv unicode then .ok ()
    else .error (.serviceUnavailable "Webhook secret is not configured")
  | some secret =>
    match providedSecret with
    | none => .error (.unauthorized "Invalid webhook secret")
    | some provided =>
      match compareDigest provided secret with
      | .error e => .error e
      | .ok true => .ok ()
      | .ok false => .error (.unauthorized "Invalid webhook secret")

/-- The request reaches its handler exactly with the configured secret, or where none is needed,
and is refused with 401 otherwise, or with 503 when there is no secret. -/
def Exact (unicode : Unicode) (settings : RawSettings) (header : Option String) : Prop :=
  (verifyWebhookSecret unicode settings header = .ok () ↔
    (∃ secret, given settings.webhookSecret = some secret ∧ header = some secret) ∨
      given settings.webhookSecret = none ∧ settings.isInsecureEnv unicode = true) ∧
  ∀ e, verifyWebhookSecret unicode settings header = .error e →
    e.status = 401 ∨ e.status = 503 ∧ given settings.webhookSecret = none

section

variable {settings : RawSettings} {header : Option String} {secret provided : String}

theorem exact_of_no_secret (h : given settings.webhookSecret = none) :
    Exact unicode settings header := by
  have hverify : verifyWebhookSecret unicode settings header =
      if settings.isInsecureEnv unicode then .ok ()
      else .error (.serviceUnavailable "Webhook secret is not configured") := by
    rw [verifyWebhookSecret, h]
  rw [Exact, hverify, h]
  by_cases henv : settings.isInsecureEnv unicode = true
  · rw [if_pos henv]
    refine ⟨⟨fun _ => .inr ⟨rfl, henv⟩, fun _ => rfl⟩, fun e he => ?_⟩
    cases he
  · rw [if_neg henv]
    refine ⟨⟨fun he => ?_, fun hor => ?_⟩, fun e he => ?_⟩
    · cases he
    · cases hor with
      | inl hsecret =>
        obtain ⟨secret, hnone, -⟩ := hsecret
        cases hnone
      | inr hinsecure => exact absurd hinsecure.2 henv
    · cases he
      exact .inr ⟨rfl, rfl⟩

theorem exact_of_no_header (h : given settings.webhookSecret = some secret) :
    Exact unicode settings none := by
  have hverify : verifyWebhookSecret unicode settings none =
      .error (.unauthorized "Invalid webhook secret") := by
    rw [verifyWebhookSecret, h]
  rw [Exact, hverify, h]
  refine ⟨⟨fun he => ?_, fun hor => ?_⟩, fun e he => ?_⟩
  · cases he
  · cases hor with
    | inl hsecret =>
      obtain ⟨secret', -, hnone⟩ := hsecret
      cases hnone
    | inr hinsecure => cases hinsecure.1
  · cases he
    exact .inl rfl

theorem exact_of_ascii (h : given settings.webhookSecret = some secret)
    (hprovided : isAscii provided = true) (hsecret : isAscii secret = true) :
    Exact unicode settings (some provided) := by
  have hcompare : compareDigest provided secret = .ok (provided == secret) := by
    rw [compareDigest, hprovided, hsecret]
    rfl
  rw [Exact, h]
  by_cases heq : provided = secret
  · have hverify : verifyWebhookSecret unicode settings (some provided) = .ok () := by
      rw [verifyWebhookSecret, h]
      dsimp only
      rw [hcompare, heq, beq_self_eq_true]
    rw [hverify]
    refine ⟨⟨fun _ => .inl ⟨secret, rfl, congrArg some heq⟩, fun _ => rfl⟩, fun e he => ?_⟩
    cases he
  · have hverify : verifyWebhookSecret unicode settings (some provided) =
        .error (.unauthorized "Invalid webhook secret") := by
      rw [verifyWebhookSecret, h]
      dsimp only
      rw [hcompare, beq_eq_false_iff_ne.mpr heq]
    rw [hverify]
    refine ⟨⟨fun he => ?_, fun hor => ?_⟩, fun e he => ?_⟩
    · cases he
    · cases hor with
      | inl hsecret' =>
        obtain ⟨secret', hsome, hheader⟩ := hsecret'
        exact absurd ((Option.some.inj hheader).trans (Option.some.inj hsome).symm) heq
      | inr hinsecure => cases hinsecure.1
    · cases he
      exact .inl rfl

/-- Where the comparison is not defined the answer is 500. -/
theorem not_exact_of_not_ascii (h : given settings.webhookSecret = some secret)
    (hascii : (isAscii provided && isAscii secret) = false) :
    ¬ Exact unicode settings (some provided) := by
  have hcompare : compareDigest provided secret =
      .error (.typeError "comparing strings with non-ASCII characters is not supported") := by
    rw [compareDigest, hascii]
    rfl
  have hverify : verifyWebhookSecret unicode settings (some provided) =
      .error (.typeError "comparing strings with non-ASCII characters is not supported") := by
    rw [verifyWebhookSecret, h]
    dsimp only
    rw [hcompare]
  intro hexact
  cases hexact.2 _ hverify with
  | inl hstatus => exact absurd hstatus (by decide)
  | inr hstatus => exact absurd hstatus.1 (by decide)

end

/-- The check is exact where there is no secret or no header, and where both are ASCII. -/
theorem verify_webhook_secret_exact_iff (unicode : Unicode) (s : AppSettings unicode)
    (header : Option String) : Exact unicode s.toRawSettings header ↔
    given s.webhookSecret = none ∨ header = none ∨
      header.all isAscii = true ∧ (given s.webhookSecret).all isAscii = true := by
  cases hsecret : given s.webhookSecret with
  | none => exact ⟨fun _ => .inl rfl, fun _ => exact_of_no_secret hsecret⟩
  | some secret =>
    cases header with
    | none => exact ⟨fun _ => .inr (.inl rfl), fun _ => exact_of_no_header hsecret⟩
    | some provided =>
      by_cases hascii : (isAscii provided && isAscii secret) = true
      · have hboth : isAscii provided = true ∧ isAscii secret = true :=
          Bool.and_eq_true_iff.mp hascii
        exact ⟨fun _ => .inr (.inr hboth), fun _ => exact_of_ascii hsecret hboth.1 hboth.2⟩
      · rw [Bool.not_eq_true] at hascii
        refine ⟨fun hexact => absurd hexact (not_exact_of_not_ascii hsecret hascii), fun hor => ?_⟩
        rcases hor with hnone | hnone | hboth
        · cases hnone
        · cases hnone
        · have hand : (isAscii provided && isAscii secret) = true :=
            Bool.and_eq_true_iff.mpr hboth
          rw [hascii] at hand
          cases hand

/-- Settings that are accepted have a secret wherever one is needed. -/
theorem verifyWebhookSecret_ne_serviceUnavailable (s : AppSettings unicode)
    (header : Option String) (detail : String) :
    verifyWebhookSecret unicode s.toRawSettings header ≠ .error (.serviceUnavailable detail) := by
  intro h
  cases hsecret : given s.webhookSecret with
  | none =>
    have henv : s.isInsecureEnv unicode = true := by
      by_contra hsecure
      have hsome := s.secret_of_secure_env ((Bool.not_eq_true _).mp hsecure)
      rw [hsecret] at hsome
      cases hsome
    rw [verifyWebhookSecret, hsecret] at h
    dsimp only at h
    rw [if_pos henv] at h
    cases h
  | some secret =>
    rw [verifyWebhookSecret, hsecret] at h
    dsimp only at h
    cases header with
    | none => cases h
    | some provided =>
      dsimp only at h
      rw [compareDigest] at h
      split at h
      · next hcompare =>
        split at hcompare
        · cases hcompare
        · cases hcompare
          cases h
      · cases h
      · cases h

/-- The settings of a test, with a secret. -/
def testSettings : AppSettings .ascii where
  webhookSecret := some "test-webhook-secret"
  accepted := by decide +kernel

/-- A header that is not ASCII is answered with 500. -/
theorem not_verify_webhook_secret_exact : ¬ ∀ (unicode : Unicode) (s : AppSettings unicode)
    (header : Option String), Exact unicode s.toRawSettings header := by
  intro h
  have hsecret : given testSettings.webhookSecret = some "test-webhook-secret" := by decide
  exact not_exact_of_not_ascii hsecret (by decide) (h .ascii testSettings (some "é"))

end MoneyWay
