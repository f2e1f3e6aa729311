import MoneyWay.Deposits

/-!
# The BingX client

How the client reads an HTTP response: the body of an accepted transfer, or an
error whose kind is told by the text of its message.
-/

set_option autoImplicit false

namespace MoneyWay

open ReadCommitted Python Prog

/-- BingX has answered with an error: `code` is null when there was none. -/
structure BingXAPIError where
  code : Json
  msg : String
  httpStatus : ℕ
  payload : Json

/-- What `create_internal_transfer` raises for the worker: an error of BingX, or the
`RecursionError` of a body that cannot be decoded. -/
inductive CallError where
  | connection (message : String)
  | api (e : BingXAPIError)
  | recursion

namespace BingXAPIError

def msgHas (unicode : Unicode) (e : BingXAPIError) (needles : List String) : Bool :=
  needles.any (contains (unicode.lower e.msg))

/-- The transfer has been accepted before. -/
def isDuplicate (unicode : Unicode) (e : BingXAPIError) : Bool :=
  e.msgHas unicode ["duplicate", "repeated", "already exist", "idempotent"]

def isInsufficientBalance (unicode : Unicode) (e : BingXAPIError) : Bool :=
  e.msgHas unicode ["insufficient", "not enough", "balance not"]

def isRecipientNotFound (unicode : Unicode) (e : BingXAPIError) : Bool :=
  e.msgHas unicode ["not found", "not exist", "does not exist", "no such user"]

end BingXAPIError

/-- `code in (None, 0, "0")`. -/
def acceptedCode : Json → Bool
  | .null => true
  | .str s => s = "0"
  | code => code.eqZero

/-- The body if it is an object. `except ValueError` takes a body that is no JSON for one that
is no object; a `RecursionError` goes through. -/
def HttpResponse.payload (r : HttpResponse) : Except CallError (Option (List (String × Json))) :=
  match r.json with
  | .ok j => .ok j.dict?
  | .error .value => .ok none
  | .error .recursion => .error .recursion

def parse (unicode : Unicode) (r : HttpResponse) : Except CallError (List (String × Json)) :=
  match r.payload with
  | .error e => .error e
  | .ok payload =>
    match if r.statusCode ≥ 400 then none else payload with
    | none =>
      .error (.api {
        code := .null
        msg := slice 500 r.text
        httpStatus := r.statusCode
        payload := payload.elim (.str (slice 500 r.text)) .obj })
    | some fields =>
      let code := (dictGet fields "code").getD .null
      if acceptedCode code then .ok fields
      else
        .error (.api {
          code
          msg := ((dictGet fields "msg").getD (.str "")).toStr unicode
          httpStatus := r.statusCode
          payload := .obj fields })

/-- What the call returns or raises. -/
def readAnswer (unicode : Unicode) : Answer → Except CallError (List (String × Json))
  | .connectionError message => .error (.connection message)
  | .response r => parse unicode r

/-- The inner transfer of an amount to a recipient. `idempotency_key` is never empty,
so it is always sent as the `transferClientId`. -/
def createInternalTransfer (unicode : Unicode) (uid : String) (amountUsdt : Numeric 8)
    (idempotencyKey : String) : Handler (Except CallError (List (String × Json))) := do
  if amountUsdt ≤ 0 then
    raise (.value "amount_usdt must be positive")
  else
    let answer ← request (σ := signature) { uid, amountUsdt, idempotencyKey }
    return readAnswer unicode answer

end MoneyWay
