import MoneyWay.BingX.Amount
import MoneyWay.BingX.SignedQuery

/-!
# The body of a transfer

What the client sends for a transfer. The recipient, the amount and the key can be read from it,
so nothing is lost when a request on its way is taken for these three.

## Main results

- `body_isOk` — the body of a request can be written
- `request_of_body` — the body determines the request
-/

set_option autoImplicit false

namespace MoneyWay

open Decimal

/-- A value of a parameter. -/
inductive ParamValue where
  | str (s : String)
  | int (n : ℤ)

def ParamValue.print : ParamValue → String
  | .str s => s
  | .int n => toString n

structure BingXClient where
  secretKey : String
  recvWindowMs : ℤ

/-- The parameters of `create_internal_transfer`, with those that `_signed_request` adds. The key
is left out when it is empty. -/
def transferParams (client : BingXClient) (uid amount idempotencyKey : String) (timestamp : ℤ) :
    Params ParamValue where
  items := [("coin", .str "USDT"), ("userAccountType", .int 1), ("userAccount", .str uid),
    ("amount", .str amount), ("walletType", .int 1)] ++
    (if idempotencyKey = "" then [] else [("transferClientId", .str idempotencyKey)]) ++
    [("recvWindow", .int client.recvWindowMs), ("timestamp", .int timestamp)]
  keys_nodup := by
    split
    · show ["coin", "userAccountType", "userAccount", "amount", "walletType", "recvWindow",
        "timestamp"].Nodup
      decide
    · show ["coin", "userAccountType", "userAccount", "amount", "walletType", "transferClientId",
        "recvWindow", "timestamp"].Nodup
      decide

/-- The body of `create_internal_transfer`. -/
def TransferRequest.body (client : BingXClient) (timestamp : ℤ) (q : TransferRequest) :
    Except Error String :=
  match formatAmount q.amountUsdt.toDecimal with
  | .error e => .error e
  | .ok amount =>
    .ok (signedQuery ParamValue.print client.secretKey
      (transferParams client q.uid amount q.idempotencyKey timestamp))

/-- A request of the worker: an amount of its column, and a key. -/
structure TransferRequest.Sendable (q : TransferRequest) : Prop where
  positive : 0 < q.amountUsdt
  fits : q.amountUsdt < 10 ^ 18
  key : q.idempotencyKey ≠ ""

variable {client client' : BingXClient} {timestamp timestamp' : ℤ} {q q' : TransferRequest}
  {text : String}

theorem TransferRequest.Sendable.storedAmount (h : q.Sendable) :
    StoredAmount q.amountUsdt.toDecimal :=
  ⟨q.amountUsdt, h.positive, h.fits, sameValue_iff_value.mpr rfl⟩

theorem body_isOk (h : q.Sendable) (client : BingXClient) (timestamp : ℤ) :
    ∃ text, q.body client timestamp = .ok text := by
  obtain ⟨d, hd, -⟩ := h.storedAmount.formatAmount_eq
  rw [TransferRequest.body, hd]
  exact ⟨_, rfl⟩

/-- The parameters with a key, as they are printed. -/
theorem printed_transferParams {uid amount idempotencyKey : String} (h : idempotencyKey ≠ "") :
    printed ParamValue.print (transferParams client uid amount idempotencyKey timestamp).items =
      [("coin", "USDT"), ("userAccountType", "1"), ("userAccount", uid), ("amount", amount),
        ("walletType", "1"), ("transferClientId", idempotencyKey),
        ("recvWindow", toString client.recvWindowMs), ("timestamp", toString timestamp)] := by
  have hone : toString (1 : ℤ) = "1" := by decide
  rw [transferParams]
  dsimp only
  rw [if_neg h]
  simp only [printed, List.cons_append, List.nil_append, List.map_cons, List.map_nil,
    ParamValue.print, hone]

/-- A body is that of one request only. -/
theorem request_of_body (h : q.Sendable) (h' : q'.Sendable)
    (hq : q.body client timestamp = .ok text) (hq' : q'.body client' timestamp' = .ok text) :
    q' = q := by
  obtain ⟨d, hd, hvalue, hsign, hnormal⟩ := h.storedAmount.formatAmount_eq
  obtain ⟨d', hd', hvalue', hsign', hnormal'⟩ := h'.storedAmount.formatAmount_eq
  rw [TransferRequest.body, hd] at hq
  rw [TransferRequest.body, hd'] at hq'
  have hperm := printed_of_signedQuery ((Except.ok.inj hq').trans (Except.ok.inj hq).symm)
  rw [printed_transferParams h.key, printed_transferParams h'.key] at hperm
  have huid : q'.uid = q.uid := by
    have hmem := hperm.subset (a := ("userAccount", q'.uid)) (by simp)
    simpa using hmem
  have hkey : q'.idempotencyKey = q.idempotencyKey := by
    have hmem := hperm.subset (a := ("transferClientId", q'.idempotencyKey)) (by simp)
    simpa using hmem
  have hamount : String.ofList d'.fixedPoint = String.ofList d.fixedPoint := by
    have hmem := hperm.subset (a := ("amount", String.ofList d'.fixedPoint)) (by simp)
    simpa using hmem
  have hsame : q'.amountUsdt.toDecimal.SameValue q.amountUsdt.toDecimal := by
    obtain ⟨-, -, -, -, hiff⟩ := format_amount_exact h.storedAmount
    refine (hiff _ h'.storedAmount).mp ?_
    rw [hd, hd', hamount]
  have hunits : q'.amountUsdt = q.amountUsdt := by
    rw [sameValue_iff_value, Numeric.toDecimal, Numeric.toDecimal, value_ofUnits,
      value_ofUnits] at hsame
    exact_mod_cast mul_right_cancel₀ (by positivity) hsame
  cases q
  cases q'
  cases huid
  cases hkey
  cases hunits
  rfl

end MoneyWay
