import MoneyWay.Coherence

/-!
# Texts that have been stored

The texts in the file of a deposit have come in with a request or a webhook and have been
stored once. A row that quotes them can be stored too.
-/

set_option autoImplicit false

namespace MoneyWay

open Keyed ReadCommitted Python Sql

/-- The texts in a file are what requests and PostgreSQL let in. -/
structure File.Admitted (f : File) : Prop where
  bingxUid_nonempty : f.transaction.bingxUid ≠ ""
  id : storableText f.transaction.id = true
  bingxUid : storableText f.transaction.bingxUid = true
  payerIp : f.transaction.payerIp.all storableText = true
  deviceFingerprint : f.transaction.deviceFingerprint.all storableText = true
  sbpPaymentId : f.transaction.sbpPaymentId.all storableText = true
  bingxTransferId : f.transaction.bingxTransferId.all storableText = true
  payerName : f.kyc.all (fun k => storableText k.payerName) = true
  payerPhone : f.kyc.all (fun k => storableText k.payerPhone) = true

theorem storableText_of_fits {n : ℕ} {o : Option String} {texts : List (ℕ × Option String)}
    (h : fits texts = true) (hm : (n, o) ∈ texts) : o.all storableText = true := by
  have ho := List.all_eq_true.mp h _ hm
  cases o with
  | none => rfl
  | some s => exact (Bool.and_eq_true _ _ ▸ ho).2

theorem all_orElse {o o' : Option String} (h : o.all storableText = true)
    (h' : o'.all storableText = true) : (o <|> o').all storableText = true := by
  cases o with
  | none => exact h'
  | some s => exact h

section Admitted

variable {unicode : Unicode} {x : Txn signature} {s : Shared signature} {id : String}

theorem FileStep.admitted {j : Job} {v : Result} {f f' : Option File}
    (hstep : FileStep unicode x s id j v f f') (hf : ∀ g ∈ f, g.Admitted) :
    ∀ g ∈ f', g.Admitted := by
  intro g hg
  cases hstep with
  | kept => exact hf g hg
  | @created _ r _ _ _ _ _ t _ hstored =>
    cases hg
    have htexts {c : ℕ × Option String} (hc : c ∈ _) : c.2.all storableText = true :=
      storableText_of_fits hstored.texts hc
    refine ⟨?_, ?_, ?_, ?_, ?_, ?_, ?_, rfl, rfl⟩
    · rw [hstored.bingxUid]
      rintro (hempty : r.bingxUid = "")
      have hlength := r.bingxUid_length.1
      simp [hempty] at hlength
    · rw [hstored.id]
      exact htexts List.mem_cons_self
    · rw [hstored.bingxUid]
      exact storableText_of_digits r.bingxUid_digits
    · rw [hstored.payerIp]
      exact htexts (List.mem_cons_of_mem _ List.mem_cons_self)
    · rw [hstored.deviceFingerprint]
      exact htexts (List.mem_cons_of_mem _ (List.mem_cons_of_mem _ List.mem_cons_self))
    · rw [hstored.sbpPaymentId]
      rfl
    · rw [hstored.bingxTransferId]
      rfl
  | rejected _ _ _ hfits =>
    cases hg
    have h := hf _ rfl
    exact { h with
      sbpPaymentId := all_orElse (storableText_of_fits hfits List.mem_cons_self) h.sbpPaymentId }
  | paid _ _ _ _ _ hfits hpayer =>
    cases hg
    have h := hf _ rfl
    exact { h with
      sbpPaymentId := all_orElse (storableText_of_fits hfits List.mem_cons_self) h.sbpPaymentId
      payerName := storableText_of_fits hpayer List.mem_cons_self
      payerPhone := storableText_of_fits hpayer (List.mem_cons_of_mem _ List.mem_cons_self) }
  | cancelled =>
    cases hg
    exact { hf _ rfl with }
  | disputed =>
    cases hg
    exact { hf _ rfl with }
  | recorded _ _ _ hset hupdated =>
    cases hg
    have h := hf _ rfl
    cases hupdated with
    | none => exact { h with }
    | skipped => exact { h with }
    | paid =>
      generalize answerRoute unicode _ = route at hset
      cases hset with
      | completed hfits =>
        exact { h with bingxTransferId := storableText_of_fits hfits List.mem_cons_self }
      | failed => exact { h with }
      | escalated => exact { h with }
  | reset =>
    cases hg
    exact { hf _ rfl with }

/-- A transaction that a commit adds is a new deposit's. -/
theorem Committed.recipient {j : Job} {v : Result} {ws : List Write} {t : Transaction}
    (h : Committed unicode x s j v ws) (ht : .transaction t ∈ ws)
    (hnew : s.db.transactions.find? t.id = none) :
    ∃ settings r, j = .createDeposit settings r ∧ t.bingxUid = r.bingxUid := by
  -- what moves a transaction keeps its id, so it was there
  have hold {t₀ : Transaction} {id : String} (h₀ : s.db.transactions.find? id = some t₀)
      (hid : t.id = t₀.id) : False := by
    rw [hid, Table.key_of_find? h₀, h₀] at hnew
    cases hnew
  cases h with
  | nothing => cases ht
  | @created settings r promoCodeId discount commission amountUsdt id now t' _ hstored =>
    obtain rfl := Write.transaction.inj (List.mem_singleton.mp ht)
    exact ⟨settings, r, rfl, hstored.bingxUid⟩
  | rejected _ h₀ =>
    obtain rfl := Write.transaction.inj (List.mem_singleton.mp ht)
    exact (hold h₀ rfl).elim
  | paid _ h₀ =>
    obtain rfl : t = _ := by simpa using ht
    exact (hold h₀ rfl).elim
  | disputed h₀ =>
    rcases List.mem_cons.mp ht with he | hm
    · obtain rfl := Write.transaction.inj he
      exact (hold h₀ rfl).elim
    · obtain ⟨y, hy⟩ := mem_cancelWrites hm
      cases hy
  | @recorded settings y y' now a set ws hclaimed _ hset hws =>
    have hmem : .transaction t ∈ ws := by simpa using ht
    cases set with
    | none =>
      obtain rfl : ws = [] := hws
      cases hmem
    | some set =>
      obtain ⟨q, -, -, t₀, -, ⟨hst, h₀, rfl⟩ | ⟨-, rfl⟩⟩ := hws
      · obtain rfl := Write.transaction.inj (List.mem_singleton.mp hmem)
        exact (hold h₀ (hset.moves hst).quote.id).elim
      · cases hmem
  | reset => simp at ht

end Admitted

section

variable {unicode : Unicode} {start : Shared signature} {tr : List (Transition signature)}
  {w : World signature}

theorem run_admitted (hs : Opening start) (hr : Run (bank unicode) start tr w)
    (hj : Contract.Starts Job.Together tr) :
    ∀ id f, w.shared.db.file id = some f → f.Admitted := by
  intro id
  refine file_induction hs id (motive := fun _ f => ∀ g, f = some g → g.Admitted)
    ?_ ?_ ?_ hr hj
  · intro g hg
    cases hg
  · exact fun _ _ _ _ ih => ih
  · exact fun _ _ _ _ _ _ _ _ _ hstep _ ih => hstep.admitted ih

/-- Every recipient has been stored, also where a worker commits its statements one by one. -/
theorem run_storable_uid (hs : Opening start) (hr : Run (bank unicode) start tr w) :
    ∀ t ∈ w.shared.db.transactions.rows, storableText t.bingxUid = true := by
  induction hr with
  | nil => simp [World.idle, hs.transactions]
  | @snoc tr w w' a hr hstep ih =>
    intro t ht
    have hfind : w'.shared.db.transactions.find? t.id = some t := Table.find?_of_mem ht
    cases hold : w.shared.db.transactions.find? t.id with
    | some t₀ =>
      have hevolves := run_evolves hs (hr.snoc hstep) (x := ⟨w, a, w'⟩) List.mem_cons_self
      obtain ⟨t', ht', hmoves⟩ := hevolves.transaction t.id t₀ hold
      obtain rfl : t = t' := Option.some.inj (hfind.symm.trans ht')
      rw [hmoves.quote.bingxUid]
      exact ih t₀ (Table.mem_of_find? hold)
    | none =>
      -- it is new, so a deposit has committed
      have hsame (he : w'.shared.db = w.shared.db) : False := by
        rw [he, hold] at hfind
        cases hfind
      cases ((payments_valid unicode).run hs.inv hr (starts_any tr)).change hstep with
      | silent _ he | finished _ _ _ he | send _ _ _ he | event _ _ he =>
        have he := congrArg Shared.db he
        exact (hsame he).elim
      | single _ _ _ _ hsingle =>
        have hnone : w'.shared.db.transactions.find? t.id = none := hsingle.transaction t.id hold
        rw [hnone] at hfind
        cases hfind
      | @commit s v _ _ _ ho _ he =>
        have ho : Outcome unicode s.job v s.txn w.shared := ho
        have he : w'.shared = ⟨replay s.txn.pending w.shared.db, w.shared.ext⟩ := he
        rw [he] at hfind
        rcases Database.transaction_replay hfind with ⟨hw, -⟩ | ⟨hf, -⟩
        · obtain ⟨settings, r, -, hrecipient⟩ :=
            ho.committed.recipient (List.mem_filter.mpr ⟨hw, rfl⟩) hold
          rw [hrecipient]
          exact storableText_of_digits r.bingxUid_digits
        · rw [hold] at hf
          cases hf

end

end MoneyWay
