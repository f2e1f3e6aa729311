import MoneyWay.BingX.Request
import MoneyWay.PayoutSafety

/-!
# What goes over the wire

The HTTP request of a transfer, and that of the list of transfers. Whatever the histories have
put on its way to BingX can be read from these bytes: the recipient and the amount of a deposit,
and the key by which BingX tells deposits apart.

## Main definitions

- `BingXConnection` — a client with its credentials
- `signedRequest` — `_signed_request` up to the answer
- `TransferRequest.http` — the request of `create_internal_transfer`

## Main results

- `fromSettings_eq_ok` — the settings a client can be built from
- `listInternalTransfers_says` — what BingX can read in a request for the list
- `run_amounts_fit` — every stored amount fits into its column
- `requests_say_payouts` — what BingX can read in the requests of a history
-/

set_option autoImplicit false

namespace MoneyWay

open Keyed ReadCommitted FormEncoding

/-! ## Requests -/

/-- The settings of the client. -/
structure BingXSettings where
  bingxApiKey : Option String := none
  bingxSecretKey : Option String := none
  bingxBaseUrl : String := "https://open-api.bingx.com"
  bingxRecvWindowMs : ℤ := 5000

structure BingXConnection extends BingXClient where
  apiKey : String
  baseUrl : String

/-- `from_settings`: keys that are missing or empty are refused. -/
def BingXConnection.fromSettings (settings : BingXSettings) : Except String BingXConnection :=
  match settings.bingxApiKey.filter (· ≠ ""), settings.bingxSecretKey.filter (· ≠ "") with
  | some apiKey, some secretKey =>
    .ok ⟨⟨secretKey, settings.bingxRecvWindowMs⟩, apiKey, settings.bingxBaseUrl⟩
  | _, _ => .error "BingX API credentials are not configured"

inductive HttpMethod where
  | get
  | post
  deriving DecidableEq, Repr

structure HttpRequest where
  method : HttpMethod
  url : String
  headers : List (String × String)
  content : Option String

namespace Params

variable {α : Type} (params : Params α) (key : String) (value : α)

/-- `{**params, key: value}` -/
def set : Params α where
  items :=
    if key ∈ params.items.map Prod.fst then
      params.items.map fun p => if p.1 = key then (key, value) else p
    else params.items ++ [(key, value)]
  keys_nodup := by
    split
    · have hkeys : (params.items.map fun p => if p.1 = key then (key, value) else p).map Prod.fst =
          params.items.map Prod.fst := by
        rw [List.map_map]
        refine List.map_congr_left fun p _ => ?_
        show (if p.1 = key then (key, value) else p).1 = p.1
        split
        · next he => exact he.symm
        · rfl
      rw [hkeys]
      exact params.keys_nodup
    · next hnew =>
      rw [List.map_append, List.nodup_append]
      refine ⟨params.keys_nodup, List.nodup_singleton _, fun k hk k' hk' he => hnew ?_⟩
      rw [List.map_cons, List.map_nil, List.mem_singleton] at hk'
      have hkey : k = key := he.trans hk'
      rwa [← hkey]

variable {params key value}

theorem items_set (h : key ∉ params.items.map Prod.fst) :
    (params.set key value).items = params.items ++ [(key, value)] := if_neg h

end Params

namespace BingXConnection

/-- `base_url.rstrip("/")` and the path. -/
def url (c : BingXConnection) (path : String) : String :=
  String.ofList (c.baseUrl.toList.reverse.dropWhile (· = '/')).reverse ++ path

/-- `_signed_request`, up to the answer. -/
def signedRequest (c : BingXConnection) (method : HttpMethod) (path : String)
    (params : Params ParamValue) (timestamp : ℤ) : HttpRequest :=
  let signed := signedQuery ParamValue.print c.secretKey
    ((params.set "recvWindow" (.int c.recvWindowMs)).set "timestamp" (.int timestamp))
  match method with
  | .post => {
      method
      url := c.url path
      headers := [("X-BX-APIKEY", c.apiKey), ("Content-Type", "application/x-www-form-urlencoded")]
      content := some signed }
  | .get => {
      method
      url := c.url path ++ "?" ++ signed
      headers := [("X-BX-APIKEY", c.apiKey)]
      content := none }

end BingXConnection

def innerTransferApply : String := "/openApi/wallets/v1/capital/innerTransfer/apply"

def innerTransferRecords : String := "/openApi/wallets/v1/capital/innerTransfer/records"

/-- The parameters of `create_internal_transfer` itself. -/
def innerTransferParams (uid amount idempotencyKey : String) : Params ParamValue where
  items := [("coin", .str "USDT"), ("userAccountType", .int 1), ("userAccount", .str uid),
    ("amount", .str amount), ("walletType", .int 1)] ++
    (if idempotencyKey = "" then [] else [("transferClientId", .str idempotencyKey)])
  keys_nodup := by
    split
    · show ["coin", "userAccountType", "userAccount", "amount", "walletType"].Nodup
      decide
    · show ["coin", "userAccountType", "userAccount", "amount", "walletType",
        "transferClientId"].Nodup
      decide

/-- `create_internal_transfer`, up to the answer. -/
def TransferRequest.http (c : BingXConnection) (timestamp : ℤ) (q : TransferRequest) :
    Except Error HttpRequest :=
  match formatAmount q.amountUsdt.toDecimal with
  | .error e => .error e
  | .ok amount =>
    .ok (c.signedRequest .post innerTransferApply
      (innerTransferParams q.uid amount q.idempotencyKey) timestamp)

/-- `list_internal_transfers`, up to the answer. -/
def listInternalTransfers (c : BingXConnection) (coin : String) (limit timestamp : ℤ) :
    HttpRequest :=
  c.signedRequest .get innerTransferRecords
    ⟨[("coin", .str coin), ("limit", .int limit)], (by decide : ["coin", "limit"].Nodup)⟩ timestamp

/-! ## What can be read in them -/

section

variable {c : BingXConnection} {client : BingXClient} {timestamp : ℤ}
  {uid amount idempotencyKey text : String} {q : TransferRequest}

theorem not_mem_innerTransferParams {key : String}
    (h : key ∉ ["coin", "userAccountType", "userAccount", "amount", "walletType",
      "transferClientId"]) :
    key ∉ (innerTransferParams uid amount idempotencyKey).items.map Prod.fst := by
  intro hmem
  refine h ?_
  by_cases hkey : idempotencyKey = ""
  · simp only [innerTransferParams, if_pos hkey, List.append_nil, List.map_cons,
      List.map_nil] at hmem
    exact List.mem_append_left ["transferClientId"] hmem
  · simpa only [innerTransferParams, if_neg hkey, List.cons_append, List.nil_append, List.map_cons,
      List.map_nil] using hmem

/-- The body is the signed query of the same parameters. -/
theorem http_eq (h : q.body c.toBingXClient timestamp = .ok text) :
    q.http c timestamp = .ok {
      method := .post
      url := c.url innerTransferApply
      headers := [("X-BX-APIKEY", c.apiKey), ("Content-Type", "application/x-www-form-urlencoded")]
      content := some text } := by
  unfold TransferRequest.body at h
  unfold TransferRequest.http
  cases hamount : formatAmount q.amountUsdt.toDecimal with
  | error e =>
    rw [hamount] at h
    cases h
  | ok amount =>
    rw [hamount] at h
    dsimp only at h ⊢
    have hwindow : "recvWindow" ∉
        (innerTransferParams q.uid amount q.idempotencyKey).items.map Prod.fst :=
      not_mem_innerTransferParams (by decide)
    have htime : "timestamp" ∉ ((innerTransferParams q.uid amount q.idempotencyKey).set "recvWindow"
        (.int c.recvWindowMs)).items.map Prod.fst := by
      rw [Params.items_set hwindow, List.map_append, List.mem_append, List.map_cons, List.map_nil,
        List.mem_singleton]
      rintro (hmem | he)
      · exact not_mem_innerTransferParams (by decide) hmem
      · exact absurd (show "timestamp" = "recvWindow" from he) (by decide)
    have hitems : (((innerTransferParams q.uid amount q.idempotencyKey).set "recvWindow"
        (.int c.recvWindowMs)).set "timestamp" (.int timestamp)).items =
          (transferParams c.toBingXClient q.uid amount q.idempotencyKey timestamp).items := by
      rw [Params.items_set htime, Params.items_set hwindow, List.append_assoc]
      rfl
    have hsigned := Except.ok.inj h
    rw [← signedQuery_perm (.of_eq hitems)] at hsigned
    rw [← hsigned]
    rfl

/-- A dictionary whose items are those of a sorted list is sorted to it. -/
theorem Params.sortedItems_eq {α : Type} {params : Params α} {items : List (String × α)}
    (hnodup : (items.map Prod.fst).Nodup) (hsorted : (items.map Prod.fst).Pairwise (· ≤ ·))
    (hmem : ∀ p, p ∈ items ↔ p ∈ params.items) : params.sortedItems = items := by
  have hperm : items.Perm params.items :=
    (List.perm_ext_iff_of_nodup hnodup.of_map params.keys_nodup.of_map).mpr hmem
  have hsame : Params.sortedItems ⟨items, hnodup⟩ = params.sortedItems := sortedItems_perm hperm
  rw [← hsame]
  exact (List.pairwise_map.mp hsorted).insertionSort_eq

/-- A client is built from settings that have both keys, and signs with these. -/
theorem BingXConnection.fromSettings_eq_ok {settings : BingXSettings} :
    fromSettings settings = .ok c ↔
      (settings.bingxApiKey = some c.apiKey ∧ c.apiKey ≠ "") ∧
      (settings.bingxSecretKey = some c.secretKey ∧ c.secretKey ≠ "") ∧
      settings.bingxBaseUrl = c.baseUrl ∧ settings.bingxRecvWindowMs = c.recvWindowMs := by
  unfold fromSettings
  constructor
  · intro h
    split at h
    · next apiKey secretKey hapi hsecret =>
      cases h
      obtain ⟨hapi, hapi'⟩ := Option.filter_eq_some_iff.mp hapi
      obtain ⟨hsecret, hsecret'⟩ := Option.filter_eq_some_iff.mp hsecret
      exact ⟨⟨hapi, of_decide_eq_true hapi'⟩, ⟨hsecret, of_decide_eq_true hsecret'⟩, rfl, rfl⟩
    · cases h
  · rintro ⟨⟨hapi, hapi'⟩, ⟨hsecret, hsecret'⟩, hurl, hwindow⟩
    have hapi : settings.bingxApiKey.filter (· ≠ "") = some c.apiKey :=
      Option.filter_eq_some_iff.mpr ⟨hapi, decide_eq_true hapi'⟩
    have hsecret : settings.bingxSecretKey.filter (· ≠ "") = some c.secretKey :=
      Option.filter_eq_some_iff.mpr ⟨hsecret, decide_eq_true hsecret'⟩
    rw [hapi, hsecret, hurl, hwindow]

/-- The list of transfers is a GET without a body: its signed parameters stand in the address, and
say which coin is asked for and how many transfers. -/
theorem listInternalTransfers_says (c : BingXConnection) (coin : String) (limit timestamp : ℤ) :
    ∃ text body, listInternalTransfers c coin limit timestamp = {
        method := .get
        url := c.url innerTransferRecords ++ "?" ++ text
        headers := [("X-BX-APIKEY", c.apiKey)]
        content := none } ∧
      text = body ++ "&signature=" ++ signatureOf c.secretKey body ∧
      decode text.toList = some [("coin", coin), ("limit", toString limit),
        ("recvWindow", toString c.recvWindowMs), ("timestamp", toString timestamp),
        ("signature", signatureOf c.secretKey body)] := by
  let asked : Params ParamValue :=
    ⟨[("coin", .str coin), ("limit", .int limit)], (by decide : ["coin", "limit"].Nodup)⟩
  let params := (asked.set "recvWindow" (.int c.recvWindowMs)).set "timestamp" (.int timestamp)
  have hwindow : "recvWindow" ∉ asked.items.map Prod.fst :=
    (by decide : "recvWindow" ∉ ["coin", "limit"])
  have htime : "timestamp" ∉
      (asked.set "recvWindow" (.int c.recvWindowMs)).items.map Prod.fst := by
    rw [Params.items_set hwindow]
    exact (by decide : "timestamp" ∉ ["coin", "limit", "recvWindow"])
  have hsorted : params.sortedItems = [("coin", .str coin), ("limit", .int limit),
      ("recvWindow", .int c.recvWindowMs), ("timestamp", .int timestamp)] := by
    have hkeys : ["coin", "limit", "recvWindow", "timestamp"].Nodup ∧
        ["coin", "limit", "recvWindow", "timestamp"].Pairwise (· ≤ ·) := by decide
    refine Params.sortedItems_eq hkeys.1 hkeys.2 fun p => ?_
    rw [Params.items_set htime, Params.items_set hwindow, List.append_assoc]
    rfl
  refine ⟨signedQuery ParamValue.print c.secretKey params, query ParamValue.print params, rfl, rfl,
    ?_⟩
  rw [decode_signedQuery, hsorted]
  rfl

/-- The parameters of a transfer in the order in which they are sent. -/
theorem sortedItems_transferParams (h : idempotencyKey ≠ "") :
    (transferParams client uid amount idempotencyKey timestamp).sortedItems =
      [("amount", .str amount), ("coin", .str "USDT"), ("recvWindow", .int client.recvWindowMs),
        ("timestamp", .int timestamp), ("transferClientId", .str idempotencyKey),
        ("userAccount", .str uid), ("userAccountType", .int 1), ("walletType", .int 1)] := by
  have hkeys : ["amount", "coin", "recvWindow", "timestamp", "transferClientId", "userAccount",
      "userAccountType", "walletType"].Nodup ∧ ["amount", "coin", "recvWindow", "timestamp",
      "transferClientId", "userAccount", "userAccountType", "walletType"].Pairwise (· ≤ ·) := by
    decide
  refine Params.sortedItems_eq hkeys.1 hkeys.2 fun p => ?_
  simp only [transferParams, if_neg h, List.cons_append, List.nil_append, List.mem_cons]
  tauto

end

/-! ## Every history -/

/-- A stored number has no more digits than its column. -/
theorem toNumeric_lt {p s : ℕ} {d : Decimal} {n : Numeric s} (h : toNumeric p s d = some n) :
    n < 10 ^ p := by
  have hstored (m : ℤ) (hm : 0 ≤ m)
      (he : (if m < 10 ^ p then some (if d.negative then -m else m) else none) = some n) :
      n < 10 ^ p := by
    split at he
    · next hlt =>
      rw [← Option.some.inj he]
      split
      · exact lt_of_le_of_lt (neg_nonpos.mpr hm) (by positivity)
      · exact hlt
    · cases he
  refine hstored _ ?_ h
  split <;> positivity

section

variable {unicode : Python.Unicode} {start : Shared signature} {tr : List (Transition signature)}
  {w : World signature}

/-- Every stored amount fits into its column. -/
theorem run_amounts_fit (hs : Opening start) (hr : Run (bank unicode) start tr w)
    (hj : Contract.Starts Job.Together tr) {id : String} {t : Transaction}
    (ht : w.shared.db.transactions.find? id = some t) : t.amountUsdt < 10 ^ 18 := by
  by_contra hlarge
  -- the commit that has made the amount too large
  obtain ⟨x, hx, s, v, hc, hstep, hbefore, g, hg, hlarge'⟩ := exists_file_turn hs hr hj
    (p := fun f => ∃ g ∈ f, ¬ g.transaction.amountUsdt < 10 ^ 18) (fun ⟨g, hg, _⟩ => by cases hg)
    ⟨_, Database.file_of_find? ht, hlarge⟩
  cases hfile : x.before.shared.db.file id with
  | some f =>
    obtain ⟨hf, -⟩ := Database.find?_of_file hfile
    obtain ⟨hg', -⟩ := Database.find?_of_file hg
    obtain ⟨t', ht', hmoves⟩ := (run_evolves hs hr hx).transaction _ _ hf
    obtain rfl := Option.some.inj (hg'.symm.trans ht')
    rw [hmoves.quote.amountUsdt] at hlarge'
    exact hbefore ⟨f, hfile, hlarge'⟩
  | none =>
    rw [hfile, hg] at hstep
    generalize s.job = j at hstep
    cases hstep with
    | created _ hstored => exact hlarge' (toNumeric_lt hstored.amountUsdt)

/-- The request has been sent, and has not been lost since. -/
def Bingx.Sent (b : Bingx) (q : TransferRequest) : Prop := q ∈ b.wire ∨ q ∈ b.accepted

theorem Ledger.sent {s : Shared signature} (h : Ledger s) {q : TransferRequest}
    (hq : s.ext.Sent q) : ∃ y ∈ s.db.bingxTransfers.rows, y.request = q :=
  hq.elim (h.wire q) (h.accepted q)

theorem sendable_of_sent (hs : Opening start) (hr : Run (bank unicode) start tr w)
    (hj : Contract.Starts Job.Together tr) {q : TransferRequest} (hq : w.shared.ext.Sent q) :
    q.Sendable := by
  have hi := run_inv hs hr
  obtain ⟨y, hy, rfl⟩ := hi.ledger.sent hq
  obtain ⟨t, ht, -, hpays⟩ := hi.sound.owner y hy
  refine ⟨y.amount_positive, ?_, ?_⟩
  · show y.amountUsdt < _
    rw [hpays.amountUsdt]
    exact run_amounts_fit hs hr hj ht
  · show y.idempotencyKey ≠ ""
    rw [hi.sound.idempotencyKey_eq hy]
    intro hempty
    have hlength := congrArg (fun text : String => text.toList.length) hempty
    simp [idempotencyKey] at hlength

/-- What has been sent in any history is a POST whose form says, in plain digits, the amount of a
deposit, and its recipient and its key; and another request with the same form or with the same
key is the same payout, whichever client has sent it, and when. -/
theorem requests_say_payouts (hs : Opening start) (hr : Run (bank unicode) start tr w)
    (hj : Contract.Starts Job.Together tr) {q : TransferRequest} (hq : w.shared.ext.Sent q)
    (c : BingXConnection) (timestamp : ℤ) :
    ∃ t text body amount d, w.shared.db.transactions.find? t.id = some t ∧
      q.http c timestamp = .ok {
        method := .post
        url := c.url innerTransferApply
        headers := [("X-BX-APIKEY", c.apiKey),
          ("Content-Type", "application/x-www-form-urlencoded")]
        content := some text } ∧
      text = body ++ "&signature=" ++ signatureOf c.secretKey body ∧
      decode text.toList = some [("amount", amount), ("coin", "USDT"),
        ("recvWindow", toString c.recvWindowMs), ("timestamp", toString timestamp),
        ("transferClientId", idempotencyKey t.id), ("userAccount", t.bingxUid),
        ("userAccountType", "1"), ("walletType", "1"),
        ("signature", signatureOf c.secretKey body)] ∧
      Decimal.Plain amount.toList ∧ Decimal.ofText? amount.toList = some d ∧
      d.SameValue t.amountUsdt.toDecimal ∧
      ∀ q', w.shared.ext.Sent q' → ∀ c' timestamp' r, q'.http c' timestamp' = .ok r →
        (r.content = some text ∨ q'.idempotencyKey = q.idempotencyKey) → q' = q := by
  have hi := run_inv hs hr
  have hsendable := sendable_of_sent hs hr hj hq
  obtain ⟨text, hbody⟩ := body_isOk hsendable c.toBingXClient timestamp
  obtain ⟨y, hy, rfl⟩ := hi.ledger.sent hq
  obtain ⟨t, ht, -, hpays⟩ := hi.sound.owner y hy
  have hid : t.id = y.transactionId := Table.key_of_find? ht
  obtain ⟨amount, hamount, hplain, ⟨d, hd, hsame⟩, -⟩ := format_amount_exact hsendable.storedAmount
  have htext := hbody
  rw [TransferRequest.body, hamount] at htext
  have htext := Except.ok.inj htext
  refine ⟨t, text, query ParamValue.print (transferParams c.toBingXClient y.request.uid amount
    y.request.idempotencyKey timestamp), amount, d, by rwa [hid], http_eq hbody, htext.symm, ?_,
    hplain, hd, ?_, fun q' hq' c' timestamp' r hr' hsame' => ?_⟩
  · have hone : toString (1 : ℤ) = "1" := by decide
    have hkey : y.request.idempotencyKey = idempotencyKey t.id := by
      rw [hid]
      exact hi.sound.idempotencyKey_eq hy
    have huid : y.request.uid = t.bingxUid := hpays.recipientUid
    rw [← htext, decode_signedQuery, sortedItems_transferParams hsendable.key, hkey, huid]
    simp only [printed, List.map_cons, List.map_nil, ParamValue.print, hone, List.cons_append,
      List.nil_append]
  · rw [← hpays.amountUsdt]
    exact hsame
  · have hsendable' := sendable_of_sent hs hr hj hq'
    rcases hsame' with hcontent | hkey
    · obtain ⟨text', hbody'⟩ := body_isOk hsendable' c'.toBingXClient timestamp'
      rw [http_eq hbody'] at hr'
      rw [← Except.ok.inj hr'] at hcontent
      rw [Option.some.inj hcontent] at hbody'
      exact request_of_body hsendable hsendable' hbody hbody'
    · obtain ⟨y', hy', rfl⟩ := hi.ledger.sent hq'
      rw [hi.sound.eq_of_idempotencyKey hy' hy hkey]

end

/-- A client for the documented address, written with a slash at its end. -/
def connection : BingXConnection := ⟨⟨"secret", 5000⟩, "key", "https://open-api.bingx.com/"⟩

example : connection.url innerTransferRecords =
    "https://open-api.bingx.com/openApi/wallets/v1/capital/innerTransfer/records" := by
  decide +kernel

/-- A worker sends the payout of a paid deposit. -/
theorem requests_say_payouts_sent : ∃ tr w, Run (bank .ascii) launch tr w ∧
    w.shared.ext.wire = [payout] ∧ ∃ r text pairs, payout.http connection 0 = .ok r ∧
      r.method = .post ∧ r.content = some text ∧ decode text.toList = some pairs ∧
      ("coin", "USDT") ∈ pairs ∧ ("timestamp", "0") ∈ pairs := by
  obtain ⟨tr, w, hr, hactions, hwire⟩ := Run.exists_of_trace (bank .ascii) launch
    (paidDeposit ++ sendPayout 0) (fun r => r.2.shared.ext.wire) (b := [payout]) (by decide)
  have hwire : w.shared.ext.wire = [payout] := hwire
  have hj : Contract.Starts Job.Together tr := Contract.Starts.of_actions hactions (by decide)
  have hsent : w.shared.ext.Sent payout := .inl (by rw [hwire]; exact List.mem_singleton_self _)
  obtain ⟨t, text, body, amount, d, -, hhttp, -, hdecode, -⟩ :=
    requests_say_payouts opening_launch hr hj hsent connection 0
  have hzero : toString (0 : ℤ) = "0" := by decide
  rw [hzero] at hdecode
  exact ⟨tr, w, hr, hwire, _, text, _, hhttp, rfl, rfl, hdecode, by simp, by simp⟩

end MoneyWay
