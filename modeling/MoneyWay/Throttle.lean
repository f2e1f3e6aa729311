import MoneyWay.RateLimit
import MoneyWay.Library.Json

/-!
# The limits on requests

Every limited route and the login of the admin panel check a key made of a scope and the address
of the client, in one dictionary. Each scope limits each client on its own, and a client that is
not behind the trusted proxy cannot pose as another one.

## Main definitions

- `clientIp` — the address of a client
- `rateLimit` — the dependency of the routes, and the middleware of the login
- `passed` — the arrivals that are let through

## Main results

- `clients_limited_apart` — when an arrival is let through
-/

set_option autoImplicit false

namespace MoneyWay.RateLimit

open Python

/-! ## Keys -/

structure LimitSettings where
  rateLimitEnabled : Bool := true
  trustedProxy : Bool := false

/-- The address of the connection, and the header `X-Real-IP`. -/
structure Peer where
  host : Option String
  realIp : Option String

/-- `client_ip` -/
def clientIp (unicode : Unicode) (settings : LimitSettings) (peer : Peer) : Option String :=
  match if settings.trustedProxy then peer.realIp.filter (· ≠ "") else none with
  | some realIp => some (slice 64 (strip unicode realIp))
  | none => peer.host

/-- `client_ip(request, settings) or 'unknown'` -/
def clientName (unicode : Unicode) (settings : LimitSettings) (peer : Peer) : String :=
  ((clientIp unicode settings peer).filter (· ≠ "")).getD "unknown"

/-- What the limits are for: the routes, and the login of the admin panel. -/
inductive Scope where
  | authRegister
  | authLogin
  | authRefresh
  | deposits
  | webhookPayment
  | webhookChargeback
  | adminApi
  | adminLogin
  deriving DecidableEq, Repr

namespace Scope

def name : Scope → String
  | .authRegister => "auth_register"
  | .authLogin => "auth_login"
  | .authRefresh => "auth_refresh"
  | .deposits => "deposits"
  | .webhookPayment => "webhook_payment"
  | .webhookChargeback => "webhook_chargeback"
  | .adminApi => "admin_api"
  | .adminLogin => "admin_login"

/-- How many requests there may be in a minute. -/
def limit : Scope → ℕ
  | .authRegister | .authLogin => 10
  | .authRefresh | .deposits => 30
  | .webhookPayment | .webhookChargeback => 120
  | .adminApi => 60
  | .adminLogin => 5

def detail : Scope → String
  | .adminLogin => "Too many login attempts, slow down."
  | _ => "Too many requests, slow down."

/-- `f"{scope}:{client}"` -/
def key (scope : Scope) (client : String) : String := scope.name ++ ":" ++ client

def all : List Scope :=
  [.authRegister, .authLogin, .authRefresh, .deposits, .webhookPayment, .webhookChargeback,
    .adminApi, .adminLogin]

end Scope

/-- Status 429, with the header `Retry-After`. -/
structure TooManyRequests where
  detail : String
  retryAfter : String
  deriving DecidableEq, Repr

/-! ## Arrivals -/

/-- Where a request comes in. -/
inductive Entrance where
  | route (scope : Scope)
  | admin (type method path : String)

/-- The limit that is checked first, if any: the middleware of the admin panel only looks at
posts to its login. -/
def Entrance.scope? : Entrance → Option Scope
  | .route scope => some scope
  | .admin type method path =>
    if type = "http" ∧ method = "POST" ∧ "/login".toList <:+ path.toList then some .adminLogin
    else none

structure Arrival (τ : Type*) where
  entrance : Entrance
  peer : Peer
  now : τ

section

variable {τ : Type*} (unicode : Unicode) (settings : LimitSettings)

/-- The call of `_check` for an arrival. -/
def Arrival.call? (a : Arrival τ) : Option (Call τ) :=
  if settings.rateLimitEnabled then
    a.entrance.scope?.map fun scope => ⟨scope.key (clientName unicode settings a.peer), a.now⟩
  else none

/-- The calls of `_check` for the arrivals, the last one first. -/
def calls (arrivals : List (Arrival τ)) : List (Call τ) :=
  arrivals.filterMap (Arrival.call? unicode settings)

variable [LinearOrder τ] [Sub τ] (minute : τ)

/-- `rate_limit(scope, limit=…, window_seconds=60)` and `AdminLoginRateLimitMiddleware`. -/
def rateLimit (scope : Scope) (peer : Peer) (now : τ) (hits : Hits τ) :
    Except TooManyRequests Unit × Hits τ :=
  if settings.rateLimitEnabled then
    match check (scope.key (clientName unicode settings peer)) scope.limit minute now hits with
    | (true, hits) => (.ok (), hits)
    | (false, hits) => (.error ⟨scope.detail, "60"⟩, hits)
  else (.ok (), hits)

/-- What happens to an arrival before its handler runs. -/
def Arrival.enter (a : Arrival τ) (hits : Hits τ) : Except TooManyRequests Unit × Hits τ :=
  match a.entrance.scope? with
  | none => (.ok (), hits)
  | some scope => rateLimit unicode settings minute scope a.peer a.now hits

/-- `_HITS` after the arrivals, the last one first. -/
def hitsAfter : List (Arrival τ) → Hits τ
  | [] => Keyed.Table.empty Prod.fst
  | a :: earlier => (a.enter unicode settings minute (hitsAfter earlier)).2

/-- The handler runs. -/
def passes (earlier : List (Arrival τ)) (a : Arrival τ) : Bool :=
  (a.enter unicode settings minute (hitsAfter unicode settings minute earlier)).1.isOk

/-- The arrivals that are let through. -/
def passed : List (Arrival τ) → List (Arrival τ)
  | [] => []
  | a :: earlier =>
    if passes unicode settings minute earlier a then a :: passed earlier else passed earlier

/-! ## Keys tell scopes and clients apart -/

theorem Scope.colon_not_mem (scope : Scope) : ':' ∉ scope.name.toList := by
  cases scope <;> decide

theorem Scope.toList_key (scope : Scope) (client : String) :
    (scope.key client).toList = scope.name.toList ++ ':' :: client.toList := by
  rw [key, String.toList_append, String.toList_append, List.append_assoc]
  rfl

/-- The scope is what stands before the first colon. -/
theorem Scope.takeWhile_key (scope : Scope) (client : String) :
    (scope.key client).toList.takeWhile (· ≠ ':') = scope.name.toList := by
  rw [toList_key, List.takeWhile_append_of_pos, List.takeWhile_cons_of_neg (by simp),
    List.append_nil]
  intro c hc
  simpa using fun h : c = ':' => scope.colon_not_mem (h ▸ hc)

theorem Scope.find?_name (scope : Scope) :
    Scope.all.find? (fun s => s.name.toList = scope.name.toList) = some scope := by
  cases scope <;> decide

theorem Scope.key_inj {scope scope' : Scope} {client client' : String} :
    scope.key client = scope'.key client' ↔ scope = scope' ∧ client = client' := by
  constructor
  · intro h
    have hname : scope.name.toList = scope'.name.toList := by
      rw [← takeWhile_key scope client, h, takeWhile_key]
    obtain rfl : scope = scope' := by
      have hfind := find?_name scope
      rw [hname, find?_name] at hfind
      exact (Option.some.inj hfind).symm
    have hlist := congrArg String.toList h
    rw [toList_key, toList_key] at hlist
    exact ⟨rfl, String.toList_inj.mp (List.cons.inj (List.append_cancel_left hlist)).2⟩
  · rintro ⟨rfl, rfl⟩
    rfl

/-- What the callers of `_check` pass for a key. -/
def ruleOf (minute : τ) (key : String) : Rule τ where
  limit := (Scope.all.find? fun s => s.name.toList = key.toList.takeWhile (· ≠ ':')).elim 0
    Scope.limit
  windowSeconds := minute

omit [LinearOrder τ] [Sub τ] in
theorem limit_ruleOf (minute : τ) (scope : Scope) (client : String) :
    (ruleOf minute (scope.key client)).limit = scope.limit := by
  rw [ruleOf]
  dsimp only
  rw [Scope.takeWhile_key, Scope.find?_name]
  rfl

/-! ## Arrivals as calls -/

variable {a : Arrival τ} {earlier : List (Arrival τ)} {scope : Scope}

omit [LinearOrder τ] [Sub τ] in
theorem call?_eq (henabled : settings.rateLimitEnabled = true)
    (hscope : a.entrance.scope? = some scope) : a.call? unicode settings =
      some ⟨scope.key (clientName unicode settings a.peer), a.now⟩ := by
  rw [Arrival.call?, if_pos henabled, hscope]
  rfl

theorem enter_eq (henabled : settings.rateLimitEnabled = true)
    (hscope : a.entrance.scope? = some scope) (hits : Hits τ) :
    ((a.enter unicode settings minute hits).1.isOk, (a.enter unicode settings minute hits).2) =
      check (scope.key (clientName unicode settings a.peer)) scope.limit minute a.now hits := by
  rw [Arrival.enter, hscope]
  dsimp only
  rw [rateLimit, if_pos henabled]
  split
  · next h => exact h.symm
  · next h => exact h.symm

variable {unicode settings minute}

/-- The dictionary only depends on the calls. -/
theorem hitsAfter_eq (henabled : settings.rateLimitEnabled = true)
    (arrivals : List (Arrival τ)) : hitsAfter unicode settings minute arrivals =
      after (ruleOf minute) (calls unicode settings arrivals) := by
  induction arrivals with
  | nil => rfl
  | cons a earlier ih =>
    cases hscope : a.entrance.scope? with
    | none =>
      have hcall : a.call? unicode settings = none := by
        rw [Arrival.call?, if_pos henabled, hscope]
        rfl
      rw [hitsAfter, calls, List.filterMap_cons_none hcall, Arrival.enter, hscope]
      exact ih
    | some scope =>
      have henter := congrArg Prod.snd
        (enter_eq unicode settings minute henabled hscope
          (hitsAfter unicode settings minute earlier))
      rw [hitsAfter, calls, List.filterMap_cons_some (call?_eq unicode settings henabled hscope),
        after, limit_ruleOf]
      rw [ih] at henter ⊢
      exact henter

theorem passes_eq (henabled : settings.rateLimitEnabled = true)
    (hscope : a.entrance.scope? = some scope) : passes unicode settings minute earlier a =
      answer (ruleOf minute) (calls unicode settings earlier)
        ⟨scope.key (clientName unicode settings a.peer), a.now⟩ := by
  have henter := congrArg Prod.fst
    (enter_eq unicode settings minute henabled hscope (hitsAfter unicode settings minute earlier))
  rw [passes, answer, limit_ruleOf, ← hitsAfter_eq henabled]
  exact henter

variable (unicode settings) in
/-- The arrival is of this client, and checks the limit of this scope. -/
def Arrival.Checks (scope : Scope) (client : String) (a : Arrival τ) : Prop :=
  a.entrance.scope? = some scope ∧ clientName unicode settings a.peer = client

instance (scope : Scope) (client : String) (a : Arrival τ) :
    Decidable (a.Checks unicode settings scope client) := inferInstanceAs (Decidable (_ ∧ _))

/-- The calls let through are the arrivals let through. -/
theorem accepted_calls (henabled : settings.rateLimitEnabled = true) (scope : Scope)
    (client : String) (arrivals : List (Arrival τ)) :
    accepted (ruleOf minute) (scope.key client) (calls unicode settings arrivals) =
      ((passed unicode settings minute arrivals).filter fun a =>
        a.Checks unicode settings scope client).map Arrival.now := by
  induction arrivals with
  | nil => rfl
  | cons a earlier ih =>
    rw [passed]
    cases hscope : a.entrance.scope? with
    | none =>
      have hcall : a.call? unicode settings = none := by
        rw [Arrival.call?, if_pos henabled, hscope]
        rfl
      have hpass : passes unicode settings minute earlier a = true := by
        rw [passes, Arrival.enter, hscope]
        rfl
      have hother : ¬ a.Checks unicode settings scope client := fun h => by
        rw [Arrival.Checks, hscope] at h
        cases h.1
      rw [calls, List.filterMap_cons_none hcall, if_pos hpass,
        List.filter_cons_of_neg (by simpa using hother)]
      exact ih
    | some scope' =>
      rw [calls, List.filterMap_cons_some (call?_eq unicode settings henabled hscope), accepted,
        ← calls, ← passes_eq henabled hscope, ih]
      have hsame : scope'.key (clientName unicode settings a.peer) = scope.key client ↔
          a.Checks unicode settings scope client := by
        rw [Scope.key_inj, Arrival.Checks, hscope, Option.some_inj]
      by_cases hpass : passes unicode settings minute earlier a = true
      · rw [if_pos hpass]
        by_cases hchecks : a.Checks unicode settings scope client
        · rw [if_pos ⟨hsame.mpr hchecks, hpass⟩, List.filter_cons_of_pos (by simpa using hchecks)]
          rfl
        · rw [if_neg fun h => hchecks (hsame.mp h.1),
            List.filter_cons_of_neg (by simpa using hchecks)]
      · rw [if_neg hpass, if_neg fun h => hpass h.2]

omit [Sub τ] in
theorem clocked_calls {arrivals : List (Arrival τ)}
    (h : arrivals.Pairwise fun a earlier => earlier.now ≤ a.now) :
    Clocked (calls unicode settings arrivals) := by
  have hnow {a : Arrival τ} {c : Call τ} (hc : a.call? unicode settings = some c) :
      c.now = a.now := by
    rw [Arrival.call?] at hc
    split at hc
    · obtain ⟨scope, -, rfl⟩ := Option.map_eq_some_iff.mp hc
      rfl
    · cases hc
  refine List.pairwise_filterMap.mpr (h.imp fun hle c hc c' hc' => ?_)
  rw [hnow hc, hnow hc']
  exact hle

/-- The same arrival with another header. -/
def Arrival.posing (realIp : Option String) (a : Arrival τ) : Arrival τ :=
  { a with peer.realIp := realIp }

/-- Without a trusted proxy nobody looks at the header. -/
theorem enter_posing (hproxy : settings.trustedProxy = false) (realIp : Option String)
    (a : Arrival τ) (hits : Hits τ) :
    (a.posing realIp).enter unicode settings minute hits =
      a.enter unicode settings minute hits := by
  have hname : clientName unicode settings (a.posing realIp).peer =
      clientName unicode settings a.peer := by
    simp [clientName, clientIp, hproxy, Arrival.posing]
  rw [Arrival.enter, Arrival.enter]
  show (match a.entrance.scope? with
    | none => _
    | some scope => rateLimit unicode settings minute scope (a.posing realIp).peer a.now hits) = _
  cases a.entrance.scope? with
  | none => rfl
  | some scope =>
    show rateLimit unicode settings minute scope _ a.now hits = rateLimit _ _ _ _ _ _ _
    rw [rateLimit, hname, rateLimit]

theorem hitsAfter_posing (hproxy : settings.trustedProxy = false)
    (header : Arrival τ → Option String) (arrivals : List (Arrival τ)) :
    hitsAfter unicode settings minute (arrivals.map fun a => a.posing (header a)) =
      hitsAfter unicode settings minute arrivals := by
  induction arrivals with
  | nil => rfl
  | cons a earlier ih => rw [List.map_cons, hitsAfter, enter_posing hproxy, ih, hitsAfter]

theorem passed_posing (hproxy : settings.trustedProxy = false)
    (header : Arrival τ → Option String) (arrivals : List (Arrival τ)) :
    passed unicode settings minute (arrivals.map fun a => a.posing (header a)) =
      (passed unicode settings minute arrivals).map fun a => a.posing (header a) := by
  induction arrivals with
  | nil => rfl
  | cons a earlier ih =>
    have hsame : passes unicode settings minute (earlier.map fun a => a.posing (header a))
        (a.posing (header a)) = passes unicode settings minute earlier a := by
      rw [passes, enter_posing hproxy, hitsAfter_posing hproxy, passes]
    rw [List.map_cons, passed, passed, hsame, ih]
    split <;> rfl

/-- With the limits on, as long as fewer other keys are checked between two arrivals of a client at
one scope than the dictionary holds: an arrival is let through exactly when fewer than the limit of
those that the client has been let through before, at the same scope, lie within the last minute;
in no minute there are more; and without a trusted proxy the same arrivals are let through
whatever address their headers give. -/
theorem clients_limited_apart (hsub : ∀ w : τ, Monotone fun t => t - w)
    (henabled : settings.rateLimitEnabled = true) {arrivals : List (Arrival τ)}
    (hclock : arrivals.Pairwise fun a earlier => earlier.now ≤ a.now) (scope : Scope)
    (client : String)
    (hrem : Remembered (scope.key client) (calls unicode settings arrivals)) :
    (∀ later a earlier, arrivals = later ++ a :: earlier → a.Checks unicode settings scope client →
      (passes unicode settings minute earlier a = true ↔
        (passed unicode settings minute earlier).countP (fun b =>
          b.Checks unicode settings scope client ∧ a.now - minute < b.now ∧ b.now ≤ a.now) <
            scope.limit)) ∧
    (∀ now, (passed unicode settings minute arrivals).countP (fun b =>
      b.Checks unicode settings scope client ∧ now - minute < b.now ∧ b.now ≤ now) ≤
        scope.limit) ∧
    (settings.trustedProxy = false → ∀ header : Arrival τ → Option String,
      passed unicode settings minute (arrivals.map fun a => a.posing (header a)) =
        (passed unicode settings minute arrivals).map fun a => a.posing (header a)) := by
  have hcount (arrivals : List (Arrival τ)) (now : τ) :
      (accepted (ruleOf minute) (scope.key client) (calls unicode settings arrivals)).countP
        (fun t => now - minute < t ∧ t ≤ now) =
      (passed unicode settings minute arrivals).countP fun b =>
        b.Checks unicode settings scope client ∧ now - minute < b.now ∧ b.now ≤ now := by
    rw [accepted_calls henabled, List.countP_map, List.countP_filter]
    refine List.countP_congr fun b _ => ?_
    simp [and_comm]
  obtain ⟨-, hexact⟩ := check_exact (ruleOf minute) hsub (calls unicode settings arrivals)
  obtain ⟨hanswer, hload, -⟩ := hexact (clocked_calls hclock) _ hrem
  rw [limit_ruleOf] at hload
  refine ⟨?_, fun now => ?_, fun hproxy header => passed_posing hproxy header arrivals⟩
  · rintro later a earlier rfl ⟨hscope, rfl⟩
    have hcalls := call?_eq unicode settings henabled hscope
    have hsplit : calls unicode settings (later ++ a :: earlier) =
        calls unicode settings later ++
          ⟨scope.key (clientName unicode settings a.peer), a.now⟩ ::
            calls unicode settings earlier := by
      rw [calls, List.filterMap_append, List.filterMap_cons_some hcalls]
      rfl
    rw [passes_eq henabled hscope, hanswer _ _ _ hsplit, limit_ruleOf, ← hcount]
    rfl
  · rw [← hcount]
    exact hload now

end

/-! ### A sixth login -/

def alice : Peer := ⟨some "203.0.113.7", some "198.51.100.9"⟩

def knock (peer : Peer) (now : ℤ) : Arrival ℤ := ⟨.admin "http" "POST" "/admin/login", peer, now⟩

/-- Alice tries six logins in a minute, one of another client and one over the API between them,
and a seventh when the minute since her first one is over. -/
def knocks : List (Arrival ℤ) :=
  [knock alice 60, knock alice 50, ⟨.route .authLogin, alice, 45⟩,
    knock ⟨some "203.0.113.8", none⟩ 44, knock alice 40, knock alice 30, knock alice 20,
    knock alice 10, knock alice 0]

theorem clients_limited_apart_login :
    (passed Unicode.ascii {} 60 knocks).map Arrival.now = [60, 45, 44, 40, 30, 20, 10, 0] ∧
    (∀ now, (passed Unicode.ascii {} 60 knocks).countP (fun b =>
      b.Checks Unicode.ascii {} .adminLogin "203.0.113.7" ∧ now - 60 < b.now ∧ b.now ≤ now) ≤ 5) ∧
    ∀ header : Arrival ℤ → Option String,
      passed Unicode.ascii {} 60 (knocks.map fun a => a.posing (header a)) =
        (passed Unicode.ascii {} 60 knocks).map fun a => a.posing (header a) := by
  have hsub : ∀ w : ℤ, Monotone fun t => t - w := fun w _ _ h => Int.sub_le_sub_right h w
  have hclock : knocks.Pairwise fun a earlier => earlier.now ≤ a.now := by decide
  have hfew : (calls Unicode.ascii {} knocks).length ≤ maxTrackedKeys :=
    (List.length_filterMap_le _ _).trans (by decide)
  obtain ⟨-, hload, hposing⟩ := @clients_limited_apart ℤ Unicode.ascii {} _ _ 60 hsub rfl knocks
    hclock .adminLogin "203.0.113.7" (Remembered.of_length hfew _)
  exact ⟨by decide +kernel, hload, hposing rfl⟩

end MoneyWay.RateLimit
