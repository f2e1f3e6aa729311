import MoneyWay.Recordable

/-!
# What fails a payout for good

The worker gives a payout up when BingX says that the recipient does not exist. It looks for
the same words in the text of an HTTP error and of a page that is no JSON object, so the page
of a proxy can close a payout as well. A page that cannot be taken down is not even retried: the
step raises, and is rolled back.
-/

set_option autoImplicit false

namespace MoneyWay

open Keyed ReadCommitted Python Prog Sql

/-- BingX says that the recipient does not exist: a JSON object with a nonzero code whose
message says so. -/
def Verdict (unicode : Unicode) (r : HttpResponse) : Prop :=
  ∃ fields ∈ r.fields?, acceptedCode (codeOf fields) = false ∧
    mentionsNotFound unicode (msgOf unicode fields) = true

/-- The body is no JSON object, and its page cannot be taken down: its decoding raises, or its
text has a character that PostgreSQL refuses. -/
def Unwritable (r : HttpResponse) : Prop :=
  r.fields? = none ∧ (r.decodes = false ∨ storableText (slice 500 r.text) = false)

/-- What the worker judges by words that are not of BingX: a body that is no JSON object and
has a word of any kind, and an HTTP error with an object that can be stored, not a verdict, whose
text says that something was not found and has no word of the other kinds. -/
def Misjudged (unicode : Unicode) (r : HttpResponse) : Prop :=
  let text := slice 500 r.text
  r.fields? = none ∧ (mentionsDuplicate unicode text = true ∨
      mentionsShortage unicode text = true ∨ mentionsNotFound unicode text = true) ∨
    ∃ fields ∈ r.fields?, 400 ≤ r.statusCode ∧ (Json.obj fields).storable = true ∧
      mentionsDuplicate unicode text = false ∧ mentionsShortage unicode text = false ∧
      mentionsNotFound unicode text = true ∧ ¬ Verdict unicode r

instance (unicode : Unicode) (r : HttpResponse) : Decidable (Verdict unicode r) :=
  inferInstanceAs (Decidable (∃ _ ∈ _, _))

instance (r : HttpResponse) : Decidable (Unwritable r) := inferInstanceAs (Decidable (_ ∧ _))

instance (unicode : Unicode) (r : HttpResponse) : Decidable (Misjudged unicode r) :=
  inferInstanceAs (Decidable (_ ∨ _))

section Responses

variable {unicode : Unicode} {r : HttpResponse} {fields : List (String × Json)}

/-- An error of BingX is recorded if what it has sent can be stored, and the id in it. -/
theorem recordable_api (e : BingXAPIError)
    (hp : (e.payload.dict?).getD [("code", e.code), ("msg", .str e.msg)] = fields) :
    (route unicode (.error (.api e))).Recordable ↔ (Json.obj fields).storable = true ∧
      (e.isDuplicate unicode = true → fits [(128, extractTransferId unicode fields)] = true) := by
  simp only [route, hp]
  split
  · next hdup => simp [Route.Recordable, hdup, and_comm]
  · next hdup =>
    have hiff (payload : Json) : payload.storable = true ↔ payload.storable = true ∧
        (e.isDuplicate unicode = true → fits [(128, extractTransferId unicode fields)] = true) :=
      (and_iff_left fun hd => absurd hd hdup).symm
    split
    · exact hiff _
    · split <;> exact hiff _

/-- A body that is no JSON object is recorded unless it cannot be taken down. -/
theorem recordable_of_no_object (h : r.fields? = none) :
    (answerRoute unicode (.response r)).Recordable ↔ ¬ Unwritable r := by
  by_cases hdec : r.decodes = true
  · rw [answerRoute, readAnswer, parse_unread hdec (.inr h), recordable_api _ rfl, h]
    have hstorable : (Json.obj [("code", .null), ("msg", .str (slice 500 r.text))]).storable =
        storableText (slice 500 r.text) := by
      have hcode : storableText "code" = true := by decide
      have hmsg : storableText "msg" = true := by decide
      simp [Json.storable, storableFields, hcode, hmsg]
    constructor
    · rintro ⟨hs, -⟩ ⟨-, hno | hno⟩
      · rw [hdec] at hno
        cases hno
      · exact Bool.false_ne_true (hno.symm.trans (hstorable.symm.trans hs))
    · intro hw
      refine ⟨hstorable.trans ?_, fun _ => rfl⟩
      by_contra hno
      exact hw ⟨h, .inr (Bool.eq_false_iff.mpr hno)⟩
  · have hdec : r.decodes = false := Bool.eq_false_iff.mpr hdec
    rw [answerRoute_of_not_decodes hdec]
    exact ⟨False.elim, fun hw => hw ⟨h, .inl hdec⟩⟩

/-- An HTTP error with a JSON object that fails a payout is recorded if the object can be stored. -/
theorem recordable_of_fails (hst : 400 ≤ r.statusCode) (hf : r.fields? = some fields)
    (h : (answerRoute unicode (.response r)).ending = .failed) :
    (answerRoute unicode (.response r)).Recordable ↔ (Json.obj fields).storable = true := by
  have hdec := HttpResponse.decodes_of_fields? hf
  rw [ending_unread hdec (.inl hst), wordsEnding_eq_failed] at h
  rw [answerRoute, readAnswer, parse_unread hdec (.inl hst), recordable_api _ rfl, hf]
  refine ⟨fun hrec => hrec.1, fun hs => ⟨hs, fun hdup => ?_⟩⟩
  exact absurd (h.1.symm.trans hdup) Bool.false_ne_true

/-- A response that fails a payout is a verdict, or it is misjudged. -/
theorem verdict_iff_of_fails (h : (answerRoute unicode (.response r)).ending = .failed)
    (hrec : (answerRoute unicode (.response r)).Recordable) :
    Verdict unicode r ↔ ¬ Misjudged unicode r := by
  constructor
  · rintro hv (⟨hnone, -⟩ | ⟨-, -, -, -, -, -, -, hno⟩)
    · obtain ⟨fields, hf, -⟩ := hv
      rw [Option.mem_def, hnone] at hf
      cases hf
    · exact hno hv
  · intro hno
    have hdec : r.decodes = true := decodes_of_ending unicode (by simp [h])
    cases hf : r.fields? with
    | none =>
      rw [ending_unread hdec (.inr hf), wordsEnding_eq_failed] at h
      exact absurd (.inl ⟨hf, .inr (.inr h.2.2)⟩) hno
    | some fields =>
      by_cases hst : 400 ≤ r.statusCode
      · have hs := (recordable_of_fails hst hf h).mp hrec
        rw [ending_unread hdec (.inl hst), wordsEnding_eq_failed] at h
        by_contra hv
        exact hno (.inr ⟨fields, hf, hst, hs, h.1, h.2.1, h.2.2, hv⟩)
      · rw [ending_read (by omega) hf] at h
        by_cases hcode : acceptedCode (codeOf fields) = true
        · simp [hcode] at h
        · rw [if_neg hcode, wordsEnding_eq_failed] at h
          exact ⟨fields, hf, by simpa using hcode, h.2.2⟩

/-- A body that is no JSON object leads to a retry that is recorded unless it cannot be taken down
or has one of the words. -/
theorem retries_iff_of_no_object (h : r.fields? = none) :
    (answerRoute unicode (.response r)).ending = .retried ∧
      (answerRoute unicode (.response r)).Recordable ↔
        ¬ Unwritable r ∧ ¬ Misjudged unicode r := by
  rw [recordable_of_no_object h, and_comm, and_congr_right_iff]
  intro hw
  have hdec : r.decodes = true := by
    by_contra hdec
    exact hw ⟨h, .inl (Bool.eq_false_iff.mpr hdec)⟩
  rw [ending_unread hdec (.inr h), wordsEnding_eq_retried]
  constructor
  · rintro ⟨hd, hs, hn⟩ (⟨-, hwords⟩ | ⟨fields, hf, -⟩)
    · simp [hd, hs, hn] at hwords
    · rw [Option.mem_def, h] at hf
      cases hf
  · intro hno
    refine ⟨?_, ?_, ?_⟩
    · exact Bool.eq_false_iff.mpr fun hd => hno (.inl ⟨h, .inl hd⟩)
    · exact Bool.eq_false_iff.mpr fun hs => hno (.inl ⟨h, .inr (.inl hs)⟩)
    · exact Bool.eq_false_iff.mpr fun hn => hno (.inl ⟨h, .inr (.inr hn)⟩)

/-- What is misjudged although it is an object fails the payout. -/
theorem fails_of_misjudged (h : Misjudged unicode r) (hf : r.fields? = some fields) :
    (answerRoute unicode (.response r)).ending = .failed ∧
      (answerRoute unicode (.response r)).Recordable := by
  rcases h with ⟨hnone, -⟩ | ⟨fields', hf', hst, hstorable, hd, hs, hn, -⟩
  · rw [hf] at hnone
    cases hnone
  · have hfails : (answerRoute unicode (.response r)).ending = .failed := by
      rw [ending_unread (HttpResponse.decodes_of_fields? hf) (.inl hst), wordsEnding_eq_failed]
      exact ⟨hd, hs, hn⟩
    exact ⟨hfails, (recordable_of_fails hst hf' hfails).mpr hstorable⟩

end Responses

/-- The attempt for the request is counted, and its transfer goes back to the queue, or to manual
review when it has no attempts left. -/
def Requeues (q : TransferRequest) (x : Transition signature) : Prop :=
  ∃ y y', x.before.shared.db.bingxTransfers.find? y.id = some y ∧ y.request = q ∧
    x.after.shared.db.bingxTransfers.find? y.id = some y' ∧
    y'.attemptNumber = y.attemptNumber + 1 ∧
    y'.status = if y'.attemptNumber < maxTransferAttempts then .pending else .error

theorem Ending.eq_retried {e : Ending} {n : ℕ} (h : e.status n = Ending.retried.status n) :
    e = .retried := by
  cases e with
  | retried => rfl
  | completed | held | failed | raised =>
    simp only [status] at h
    split at h <;> cases h

section

variable {unicode : Unicode} {start : Shared signature} {tr : List (Transition signature)}
  {w : World signature} {x : Transition signature} {s : Session signature}
  {settings : WorkerSettings} {q : TransferRequest} {a : Answer}

theorem failed_of_leaves {r : Route} {w : Write} (h : r.Leaves w)
    (hw : w.HasStatus .failed .failed) : r.ending = .failed := by
  cases h with
  | failed | lost => rfl
  | completed | paidOut | held | retried | errored | escalated => cases hw
  | alerted | logged => exact hw.elim

/-- A step that ends requeues its transfer exactly if its answer leads there and is recorded. -/
theorem requeues_iff (hs : Opening start) (hr : Run (bank unicode) start tr w) (hx : x ∈ tr)
    (he : x.Ends s) (hjob : s.job = .processTransfer settings)
    (hauto : settings.autocommit = false) (hcalls : s.txn.calls = [(q, a)]) :
    Requeues q x ↔ (answerRoute unicode a).ending = .retried ∧
      (answerRoute unicode a).Recordable := by
  have hiff := commits_iff_recordable hs hr hx he hjob hauto hcalls
  constructor
  · rintro ⟨z, z', hz, hzq, hz', hattempt, hzst⟩
    -- a step that is rolled back counts nothing
    have hrec : (answerRoute unicode a).Recordable := by
      by_contra hno
      rw [unchanged_of_not_recordable hs hr hx he hjob hauto hcalls hno, hz] at hz'
      cases hz'
      omega
    refine ⟨?_, hrec⟩
    obtain ⟨v, hc⟩ := hiff.mpr hrec
    obtain ⟨y, y', hy, hq, -, hy', -, hst⟩ := attempt_settles hs hr hx hc hjob hauto hcalls
    have hinv : Inv x.before.shared :=
      ((payments_valid unicode).transition hs.inv hr (starts_any tr) hx).1.inv
    have hzy : z = y := hinv.sound.eq_of_idempotencyKey (Table.mem_of_find? hz)
      (Table.mem_of_find? hy) (congrArg TransferRequest.idempotencyKey (hzq.trans hq.symm))
    subst hzy
    rw [hy'] at hz'
    cases hz'
    rw [hattempt] at hzst
    exact Ending.eq_retried (hst.symm.trans hzst)
  · rintro ⟨hend, hrec⟩
    obtain ⟨v, hc⟩ := hiff.mpr hrec
    obtain ⟨y, y', hy, hq, -, hy', hattempt, hst⟩ :=
      attempt_settles hs hr hx hc hjob hauto hcalls
    rw [hend] at hst
    exact ⟨y, y', hy, hq, hy', hattempt, by rw [hattempt]; exact hst⟩

/-- In every history, a worker that fails a transfer or its transaction for good has had a
response which is a verdict of BingX, or one that is misjudged. And however a step ends that is
one transaction and has had its response, it keeps to the verdict, and requeues on a body that is
no JSON object, exactly where the response is not misjudged and can be taken down. -/
theorem failed_on_verdict_iff (hs : Opening start) (hr : Run (bank unicode) start tr w)
    (hx : x ∈ tr) (hfind : x.before.sessions.find? s.id = some s) (ha : x.action = .run s.id)
    (hjob : s.job = .processTransfer settings) :
    (Enters .failed .failed x → ∃ q r, (q, .response r) ∈ s.txn.calls ∧
      (Verdict unicode r ↔ ¬ Misjudged unicode r)) ∧
    (x.Ends s → settings.autocommit = false → ∀ q r, s.txn.calls = [(q, .response r)] →
      ((Enters .failed .failed x → Verdict unicode r) ∧ (r.fields? = none → Requeues q x) ↔
        ¬ Unwritable r ∧ ¬ Misjudged unicode r)) := by
  have hresponse (henters : Enters .failed .failed x) : ∃ q r, (q, .response r) ∈ s.txn.calls ∧
      (Verdict unicode r ↔ ¬ Misjudged unicode r) := by
    obtain ⟨q, r, hc, h, hrec⟩ := exists_response (by decide) (by decide)
      (fun _ _ => failed_of_leaves) hr hx hfind ha hjob henters
    exact ⟨q, r, hc, verdict_iff_of_fails h hrec⟩
  refine ⟨hresponse, fun he hauto q r hcalls => ?_⟩
  have hrequeues := requeues_iff hs hr hx he hjob hauto hcalls
  constructor
  · rintro ⟨hverdict, hretry⟩
    cases hf : r.fields? with
    | none => exact (retries_iff_of_no_object hf).mp (hrequeues.mp (hretry hf))
    | some fields =>
      refine ⟨fun hw => ?_, fun hmis => ?_⟩
      · rw [hw.1] at hf
        cases hf
      · obtain ⟨hfails, hrec⟩ := fails_of_misjudged hmis hf
        obtain ⟨v, hc⟩ := (commits_iff_recordable hs hr hx he hjob hauto hcalls).mpr hrec
        have henters : Enters .failed .failed x :=
          attempt_enters hs hr hx hc hjob hauto hcalls (fun n => by rw [hfails]; rfl) (by decide)
        exact (verdict_iff_of_fails hfails hrec).mp (hverdict henters) hmis
  · rintro ⟨hw, hno⟩
    refine ⟨fun henters => ?_, fun hnone => ?_⟩
    · obtain ⟨q', r', hc, hverdict⟩ := hresponse henters
      rw [hcalls] at hc
      cases List.mem_singleton.mp hc
      exact hverdict.mpr hno
    · exact hrequeues.mpr ((retries_iff_of_no_object hnone).mpr ⟨hw, hno⟩)

end

/-- What a transition with its response shows: whether it fails, by a verdict, misjudged or on a
page that cannot be taken down. -/
def failure (x : Transition signature) (r : HttpResponse) : Bool × Bool × Bool :=
  (decide (Enters .failed .failed x), decide (Verdict .ascii r),
    decide (Unwritable r ∨ Misjudged .ascii r))

/-- A payout is given up when BingX does not know the recipient. -/
theorem failed_on_verdict_refused : ∃ tr w x s q r, Run (bank .ascii) launch tr w ∧ x ∈ tr ∧
    x.before.sessions.find? s.id = some s ∧ s.txn.calls = [(q, .response r)] ∧
    Enters .failed .failed x ∧ Verdict .ascii r := by
  obtain ⟨tr, w, x, s, settings, v, q, r, hr, hx, ⟨hfind, ha, hp⟩, hjob, hauto, hcalls, hobs⟩ :=
    exists_attempt (answeredPayout (refusal "recipient not found") 5) failure
      (b := (true, true, false)) (by decide)
  obtain ⟨hset, hread⟩ := Prod.mk.inj hobs
  have hset : Enters .failed .failed x := of_decide_eq_true hset
  have hno : ¬ (Unwritable r ∨ Misjudged .ascii r) := of_decide_eq_false (Prod.mk.inj hread).2
  obtain ⟨-, hiff⟩ := failed_on_verdict_iff opening_launch hr hx hfind ha hjob
  exact ⟨tr, w, x, s, q, r, hr, hx, hfind, hcalls, hset,
    ((hiff ⟨hfind, ha, .inl ⟨v, hp⟩⟩ hauto q r hcalls).mpr (not_or.mp hno)).1 hset⟩

/-- The page of a web server whose route is gone for a moment. -/
def missingPage : Answer := .response ⟨404, "<html>404 Not Found</html>", .error .value⟩

/-- The page of a web server fails a payout for good. -/
theorem not_failed_on_verdict : ¬ ∀ (unicode : Unicode) (start : Shared signature)
    (tr : List (Transition signature)) (w : World signature), Opening start →
    Run (bank unicode) start tr w → ∀ x ∈ tr, ∀ (s : Session signature) (settings : WorkerSettings),
    x.before.sessions.find? s.id = some s → x.action = .run s.id →
    s.job = .processTransfer settings → Enters .failed .failed x →
    ∃ q r, (q, .response r) ∈ s.txn.calls ∧ Verdict unicode r := by
  intro h
  obtain ⟨tr, w, x, s, settings, v, q, r, hr, hx, ⟨hfind, ha, hp⟩, hjob, -, hcalls, hobs⟩ :=
    exists_attempt (answeredPayout missingPage 5) failure (b := (true, false, true)) (by decide)
  obtain ⟨hset, hread⟩ := Prod.mk.inj hobs
  have hno : ¬ Verdict .ascii r := of_decide_eq_false (Prod.mk.inj hread).1
  obtain ⟨q', r', hmem, hev⟩ := h .ascii launch tr w opening_launch hr x hx s settings hfind ha
    hjob (of_decide_eq_true hset)
  rw [hcalls] at hmem
  cases List.mem_singleton.mp hmem
  exact hno hev

end MoneyWay
