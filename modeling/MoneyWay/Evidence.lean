import MoneyWay.Routes

/-!
# What completes a payout

The worker completes a payout on an answer that says BingX has accepted it, now or before.
It takes some other answers for such ones: a JSON object without a code, and a response that
is no answer of BingX but has a word for a duplicate in its text.
-/

set_option autoImplicit false

namespace MoneyWay

open Keyed ReadCommitted Python Prog Sql

/-! ## Answers -/

/-- The code is 0 or "0". -/
def zeroCode : Json → Bool
  | .int n => n = 0
  | .float x => x.isZero
  | .str s => s = "0"
  | _ => false

/-- There is no code, or it is null or false. -/
def unsetCode : Json → Bool
  | .null => true
  | .bool b => !b
  | _ => false

/-- BingX says that it has accepted the transfer: a JSON object with a zero code, or one with
another code whose message reports a duplicate. -/
def Evidence (unicode : Unicode) (r : HttpResponse) : Prop :=
  ∃ fields ∈ r.fields?, r.statusCode < 400 ∧ zeroCode (codeOf fields) = true ∨
    acceptedCode (codeOf fields) = false ∧ mentionsDuplicate unicode (msgOf unicode fields) = true

/-- What the worker takes for that: a JSON object without a code, and a text that mentions a
duplicate in a response that can be decoded and is an HTTP error or no JSON object, unless it is
evidence. -/
def Misread (unicode : Unicode) (r : HttpResponse) : Prop :=
  (∃ fields ∈ r.fields?, r.statusCode < 400 ∧ unsetCode (codeOf fields) = true) ∨
    r.decodes = true ∧ (400 ≤ r.statusCode ∨ r.fields? = none) ∧
      mentionsDuplicate unicode (slice 500 r.text) = true ∧
      ¬ ∃ fields ∈ r.fields?, acceptedCode (codeOf fields) = false ∧
        mentionsDuplicate unicode (msgOf unicode fields) = true

instance (unicode : Unicode) (r : HttpResponse) : Decidable (Evidence unicode r) :=
  inferInstanceAs (Decidable (∃ _ ∈ _, _))

instance (unicode : Unicode) (r : HttpResponse) : Decidable (Misread unicode r) :=
  inferInstanceAs (Decidable (_ ∨ _))

section Answers

variable {unicode : Unicode} {r : HttpResponse} {fields : List (String × Json)}

theorem acceptedCode_eq (code : Json) : acceptedCode code = (zeroCode code || unsetCode code) := by
  cases code with
  | bool b => cases b <;> rfl
  | int n => simp [acceptedCode, zeroCode, unsetCode, Json.eqZero]
  | float x => simp [acceptedCode, zeroCode, unsetCode, Json.eqZero]
  | str s => simp [acceptedCode, zeroCode, unsetCode]
  | null | arr | obj => rfl

theorem completes_unread (hdec : r.decodes = true) (h : 400 ≤ r.statusCode ∨ r.fields? = none) :
    (answerRoute unicode (.response r)).ending = .completed ↔
      mentionsDuplicate unicode (slice 500 r.text) = true := by
  rw [ending_unread hdec h, wordsEnding_eq_completed]

theorem completes_read (hst : r.statusCode < 400) (hf : r.fields? = some fields) :
    (answerRoute unicode (.response r)).ending = .completed ↔
      acceptedCode (codeOf fields) = true ∨
        mentionsDuplicate unicode (msgOf unicode fields) = true := by
  rw [ending_read hst hf]
  by_cases hcode : acceptedCode (codeOf fields) = true
  · simp [hcode]
  · simp [hcode, wordsEnding_eq_completed]

theorem completes_of_misread (h : Misread unicode r) :
    (answerRoute unicode (.response r)).ending = .completed := by
  rcases h with ⟨fields, hf, hst, hcode⟩ | ⟨hdec, hunread, htext, -⟩
  · refine (completes_read hst hf).mpr (.inl ?_)
    rw [acceptedCode_eq, hcode, Bool.or_true]
  · exact (completes_unread hdec hunread).mpr htext

/-- An answer that completes a payout is evidence, or it is one of these. -/
theorem evidence_iff_of_completes (h : (answerRoute unicode (.response r)).ending = .completed) :
    Evidence unicode r ↔ ¬ Misread unicode r := by
  have hdec : r.decodes = true := decodes_of_ending unicode (by simp [h])
  by_cases hunread : 400 ≤ r.statusCode ∨ r.fields? = none
  · have htext := (completes_unread hdec hunread).mp h
    constructor
    · rintro ⟨fields, hf, ⟨hst, -⟩ | hdup⟩
      · rcases hunread with hst' | hnone
        · omega
        · rw [Option.mem_def, hnone] at hf
          cases hf
      · rintro (⟨fields', hf', hst, hcode⟩ | ⟨-, -, -, hno⟩)
        · rcases hunread with hst' | hnone
          · omega
          · rw [Option.mem_def, hnone] at hf'
            cases hf'
        · exact hno ⟨fields, hf, hdup⟩
    · intro hno
      by_contra hev
      refine hno (.inr ⟨hdec, hunread, htext, ?_⟩)
      rintro ⟨fields, hf, hdup⟩
      exact hev ⟨fields, hf, .inr hdup⟩
  · obtain ⟨hst, hsome⟩ := not_or.mp hunread
    obtain ⟨fields, hf⟩ := Option.ne_none_iff_exists'.mp hsome
    have hst : r.statusCode < 400 := by omega
    have hread := (completes_read hst hf).mp h
    have hone (g : List (String × Json)) (hg : g ∈ r.fields?) : g = fields :=
      Option.some.inj (hg.symm.trans hf)
    constructor
    · rintro ⟨g, hg, hev⟩ (⟨g', hg', -, hunset⟩ | ⟨-, hunread', -⟩)
      · rw [hone g' hg'] at hunset
        rw [hone g hg] at hev
        rcases hev with ⟨-, hzero⟩ | ⟨hcode, -⟩
        · cases hc : codeOf fields <;> simp [hc, zeroCode, unsetCode] at hzero hunset
        · rw [acceptedCode_eq, hunset, Bool.or_true] at hcode
          cases hcode
      · exact hunread hunread'
    · intro hno
      have hset : unsetCode (codeOf fields) = false := by
        by_contra hunset
        exact hno (.inl ⟨fields, hf, hst, by simpa using hunset⟩)
      refine ⟨fields, hf, ?_⟩
      by_cases hcode : acceptedCode (codeOf fields) = true
      · rw [acceptedCode_eq, hset, Bool.or_false] at hcode
        exact .inl ⟨hst, hcode⟩
      · exact .inr ⟨by simpa using hcode, hread.resolve_left hcode⟩

end Answers

/-! ## Completing a payout -/

section

variable {unicode : Unicode} {start : Shared signature} {tr : List (Transition signature)}
  {w : World signature} {x : Transition signature} {s : Session signature}
  {settings : WorkerSettings}

theorem completed_of_leaves {r : Route} {w : Write} (h : r.Leaves w)
    (hw : w.HasStatus .completed .completed) : r.ending = .completed := by
  cases h with
  | completed | paidOut => rfl
  | held | failed | lost | retried | errored | escalated => cases hw
  | alerted | logged => exact hw.elim

/-- In every history, a worker that completes a transfer or its transaction has had a
response which is evidence of the acceptance, or one that the client misreads; and a step
whose statements commit together keeps to the evidence exactly where the response is not
misread. -/
theorem completed_on_evidence_iff (hs : Opening start) (hr : Run (bank unicode) start tr w)
    (hx : x ∈ tr) (hfind : x.before.sessions.find? s.id = some s) (ha : x.action = .run s.id)
    (hjob : s.job = .processTransfer settings) :
    (Enters .completed .completed x → ∃ q r, (q, .response r) ∈ s.txn.calls ∧
      (Evidence unicode r ↔ ¬ Misread unicode r)) ∧
    ∀ v q r, s.prog = .done v → settings.autocommit = false →
      s.txn.calls = [(q, .response r)] →
      ((Enters .completed .completed x → Evidence unicode r) ↔ ¬ Misread unicode r) := by
  have hresponse (henters : Enters .completed .completed x) : ∃ q r,
      (q, .response r) ∈ s.txn.calls ∧ (Evidence unicode r ↔ ¬ Misread unicode r) := by
    obtain ⟨q, r, hc, h, -⟩ := exists_response (by decide) (by decide)
      (fun _ _ => completed_of_leaves) hr hx hfind ha hjob henters
    exact ⟨q, r, hc, evidence_iff_of_completes h⟩
  refine ⟨hresponse, fun v q r hp hauto hcalls => ⟨fun h hmis => ?_, fun hno hset => ?_⟩⟩
  · have hcomp := completes_of_misread hmis
    have hset : Enters .completed .completed x :=
      attempt_enters hs hr hx ⟨hfind, ha, hp⟩ hjob hauto hcalls (fun n => by rw [hcomp]; rfl)
        (by decide)
    exact (evidence_iff_of_completes hcomp).mp (h hset) hmis
  · obtain ⟨q', r', hc, hev⟩ := hresponse hset
    rw [hcalls] at hc
    cases List.mem_singleton.mp hc
    exact hev.mpr hno

end

/-- What a transition with its response shows: whether it completes, on evidence, misread. -/
def completion (x : Transition signature) (r : HttpResponse) : Bool × Bool × Bool :=
  (decide (Enters .completed .completed x), decide (Evidence .ascii r), decide (Misread .ascii r))

/-- An accepted payout is completed on the evidence. -/
theorem completed_on_evidence_accepted : ∃ tr w x s q r, Run (bank .ascii) launch tr w ∧ x ∈ tr ∧
    x.before.sessions.find? s.id = some s ∧ s.txn.calls = [(q, .response r)] ∧
    Enters .completed .completed x ∧ Evidence .ascii r := by
  obtain ⟨tr, w, x, s, settings, v, q, r, hr, hx, ⟨hfind, ha, hp⟩, hjob, hauto, hcalls, hobs⟩ :=
    exists_attempt (answeredPayout acceptance 5) completion (b := (true, true, false)) (by decide)
  obtain ⟨hset, hread⟩ := Prod.mk.inj hobs
  have hset : Enters .completed .completed x := of_decide_eq_true hset
  have hno : ¬ Misread .ascii r := of_decide_eq_false (Prod.mk.inj hread).2
  obtain ⟨-, hiff⟩ := completed_on_evidence_iff opening_launch hr hx hfind ha hjob
  exact ⟨tr, w, x, s, q, r, hr, hx, hfind, hcalls, hset, (hiff v q r hp hauto hcalls).mpr hno hset⟩

/-- The page of a proxy that could not read what BingX has answered. -/
def badGateway : Answer :=
  .response ⟨502, "502 Bad Gateway: duplicate Content-Length header", .error .value⟩

/-- The page of a proxy completes a payout. -/
theorem not_completed_on_evidence : ¬ ∀ (unicode : Unicode) (start : Shared signature)
    (tr : List (Transition signature)) (w : World signature), Opening start →
    Run (bank unicode) start tr w → ∀ x ∈ tr, ∀ (s : Session signature) (settings : WorkerSettings),
    x.before.sessions.find? s.id = some s → x.action = .run s.id →
    s.job = .processTransfer settings → Enters .completed .completed x →
    ∃ q r, (q, .response r) ∈ s.txn.calls ∧ Evidence unicode r := by
  intro h
  obtain ⟨tr, w, x, s, settings, v, q, r, hr, hx, ⟨hfind, ha, hp⟩, hjob, -, hcalls, hobs⟩ :=
    exists_attempt (answeredPayout badGateway 5) completion (b := (true, false, true)) (by decide)
  obtain ⟨hset, hread⟩ := Prod.mk.inj hobs
  have hno : ¬ Evidence .ascii r := of_decide_eq_false (Prod.mk.inj hread).1
  obtain ⟨q', r', hmem, hev⟩ := h .ascii launch tr w opening_launch hr x hx s settings hfind ha
    hjob (of_decide_eq_true hset)
  rw [hcalls] at hmem
  cases List.mem_singleton.mp hmem
  exact hno hev

end MoneyWay
