import MoneyWay.Library.ReadCommitted.Quiet
import MoneyWay.StoredTexts

/-!
# The chargeback webhook raises nothing

As long as its reason can be stored: what else it writes it quotes from a deposit whose
rows have been stored before and do not go away.
-/

set_option autoImplicit false

namespace MoneyWay

open Keyed ReadCommitted Python Prog Sql

/-- A transaction and a user that rows may refer to. -/
def Present (id userId : String) (d : Database) : Prop :=
  (d.transactions.find? id).isSome = true ∧ (d.users.find? userId).isSome = true

theorem lasting_present (id userId : String) :
    Lasting (σ := signature) (Present id userId) := by
  rintro ws d ⟨ht, hu⟩
  refine ⟨?_, by rwa [Database.users_replay]⟩
  obtain ⟨t, ht⟩ := Option.isSome_iff_exists.mp ht
  obtain ⟨t', ht'⟩ := Database.exists_transaction_replay ws ht
  exact Option.isSome_iff_exists.mpr ⟨t', ht'⟩

theorem Present.referenced {id userId : String} {d : Database} (h : Present id userId d) :
    referenced d (some userId) (some id) = true := by
  simp [Sql.referenced, h.1, h.2]

variable {φ : Answer → Prop}

section Quiet

variable {I : Database → Prop}

theorem quiet_exec {β : Type} {q : Statement β}
    (h : ∀ blocked d, I d → ∀ e, q blocked d ≠ .error e) : (exec q : Handler β).Quiet φ I := by
  intro blocked d hd
  cases hq : q blocked d with
  | error e => exact absurd hq (h blocked d hd e)
  | ok eff => exact ⟨eff, rfl, trivial⟩

theorem quiet_now {α : Type} {f : ℤ → Handler α} (h : ∀ t, (f t).Quiet φ I) :
    (Prog.now >>= f).Quiet φ I := h

theorem quiet_insertFraudAlert {a : FraudAlert} (ha : storableDetails a.metadata = true)
    (hI : ∀ d, I d → referenced d a.userId a.transactionId = true) :
    (exec (insertFraudAlert a) : Handler Unit).Quiet φ I := by
  refine quiet_exec fun blocked d hd e he => ?_
  rw [insertFraudAlert, ha, hI d hd] at he
  cases he

theorem quiet_writeAuditLog {eventType : EventType} {userId transactionId : Option String}
    {payload : Details} (hp : storableDetails payload = true)
    (hI : ∀ d, I d → referenced d userId transactionId = true) :
    (writeAuditLog eventType userId transactionId payload none none none).Quiet φ I := by
  intro now
  refine quiet_exec fun blocked d hd e he => ?_
  have hpayload : (auditEntry eventType userId transactionId payload none none none
      now).payload.all storableDetails = true := by
    unfold auditEntry
    split
    · rfl
    · exact hp
  have hrefers : referenced d (auditEntry eventType userId transactionId payload none none none
      now).userId (auditEntry eventType userId transactionId payload none none none
      now).transactionId = true := hI d hd
  rw [insertAuditLog, hpayload, hrefers] at he
  cases he

theorem quiet_updateTransaction {id : String} {guard : Transaction → Bool}
    {set : Transaction → Transaction} :
    (exec (updateTransaction id [] guard set) : Handler Unit).Quiet φ I := by
  refine quiet_exec fun blocked d _ e he => ?_
  unfold updateTransaction at he
  split at he
  · split at he
    · cases he
    · split at he <;> cases he
  · next hfits => exact hfits rfl

theorem quiet_releasePromoCode {id : String} : (releasePromoCode id).Quiet φ I := by
  refine quiet_exec fun blocked d _ e he => ?_
  unfold updatePromoRelease at he
  split at he
  · cases he
  · split at he <;> cases he

theorem quiet_blacklistChargeback {type : BlacklistType} {value reason : String}
    (hv : value.length ≤ 255 ∧ storableText value = true)
    (hr : reason.length ≤ 255 ∧ storableText reason = true) :
    (blacklistChargeback type value reason).Quiet φ I := by
  unfold blacklistChargeback
  split
  · trivial
  · intro id now
    refine quiet_exec fun blocked d _ e he => ?_
    have hcomment : "chargeback webhook".length ≤ 512 ∧
        storableText "chargeback webhook" = true := by decide
    have hfits : fits [(255, some value), (255, some reason),
        (512, some "chargeback webhook")] = true := by
      simp [fits, hv, hr, hcomment]
    simp only [upsertBlacklist, chargebackEntry, hfits, if_true] at he
    split at he <;> cases he

end Quiet

/-- The chargeback of a deposit that has been stored raises nothing. -/
theorem quiet_recordChargeback {p : SBPChargebackWebhook} {d : Dossier}
    (hreason : storableText p.reason = true) (hid : storableText p.transactionId = true)
    (hd : storableDetails (chargebackDossier d p.reason) = true)
    (hemail : d.email.length ≤ 255 ∧ storableText d.email = true)
    (huid : storableText d.transaction.bingxUid = true) :
    (recordChargeback p d).Quiet φ (Present d.transaction.id d.transaction.userId) := by
  have hlen := d.transaction.bingxUid_length
  refine quiet_now fun now => Quiet.bind quiet_updateTransaction fun _ => ?_
  refine Quiet.bind (quiet_exec fun _ _ _ _ he => by cases he) fun n => ?_
  refine Quiet.bind quiet_releasePromoCode fun _ => ?_
  refine Quiet.bind (Quiet.bind
    (quiet_blacklistChargeback hemail ⟨p.reason_length, hreason⟩) fun _ =>
      quiet_blacklistChargeback ⟨by omega, huid⟩ ⟨p.reason_length, hreason⟩) fun _ => ?_
  refine Quiet.bind (quiet_insertFraudAlert hd fun _ => Present.referenced) fun _ => ?_
  refine quiet_writeAuditLog ?_ fun _ => Present.referenced
  simp [chargebackDetails, SBPChargebackWebhook.modelDump, storableDetails, hid, hreason]

/-- Everything the alert quotes from the deposit can be stored. -/
theorem storable_chargebackDossier {t : Transaction} {u : User} {m : Option BingxTransfer}
    {k : Option KycRecord} {reason : String} (h : File.Admitted ⟨t, m, k⟩)
    (hreason : storableText reason = true) :
    storableDetails (chargebackDossier
      ⟨t, u.email, k.map (·.payerName), k.map (·.payerPhone)⟩ reason) = true := by
  have hname : (k.map (·.payerName)).all storableText = true := by
    rw [Option.all_map]
    exact h.payerName
  have hphone : (k.map (·.payerPhone)).all storableText = true := by
    rw [Option.all_map]
    exact h.payerPhone
  simp [chargebackDossier, storableDetails, hreason, u.email_storable, h.bingxUid, h.payerIp,
    h.deviceFingerprint, h.sbpPaymentId, h.bingxTransferId, hname, hphone]

/-- What the webhook finds in a database of a history is enough for the rest of it. -/
theorem begins_chargeback {unicode : Unicode} {p : SBPChargebackWebhook} {d : Database}
    (hd : Sound d) (hfiles : ∀ id f, d.file id = some f → f.Admitted)
    (hreason : storableText p.reason = true) (hid : storableText p.transactionId = true) :
    ((bank unicode).program (.sbpChargebackWebhook p)).Begins φ d := by
  intro blocked
  cases ht : d.transactions.find? p.transactionId with
  | none =>
    refine ⟨{ value := none }, by simp [selectDossierForUpdate, ht], fun _ => True,
      fun _ _ _ => trivial, trivial, ?_⟩
    refine Quiet.bind (quiet_writeAuditLog ?_ fun _ _ => rfl) fun _ => trivial
    simp [storableDetails, hid, hreason]
  | some t =>
    obtain ⟨u, hu⟩ := hd.user t (Table.mem_of_find? ht)
    have hkey : t.id = p.transactionId := Table.key_of_find? ht
    have hadm := hfiles _ _ (Database.file_of_find? ht)
    rw [← hkey] at hadm
    have hdossier := storable_chargebackDossier (u := u) hadm hreason
    refine ⟨{
      value := some ⟨t, u.email, (d.kycRecords.find? t.id).map (·.payerName),
        (d.kycRecords.find? t.id).map (·.payerPhone)⟩
      locks := [(.transaction t.id, .update)] }, by simp [selectDossierForUpdate, ht, hu],
      Present t.id t.userId, lasting_present _ _, ⟨by rw [hkey, ht]; rfl, by rw [hu]; rfl⟩, ?_⟩
    generalize (d.kycRecords.find? t.id).map (·.payerName) = payerName at hdossier ⊢
    generalize (d.kycRecords.find? t.id).map (·.payerPhone) = payerPhone at hdossier ⊢
    refine Quiet.bind ?_ fun _ => trivial
    change Quiet _ _ (if t.status = .chargeback then _ else if ¬ t.status ∈ _ then _ else _)
    split
    · trivial
    split
    · refine quiet_writeAuditLog ?_ fun _ => Present.referenced
      have hstatus : storableText t.status.text = true := by cases t.status <;> rfl
      simp [storableDetails, hreason, hstatus]
    · have hlen : u.email.length ≤ 255 := by
        have := u.email_length
        omega
      exact quiet_recordChargeback hreason hid hdossier ⟨hlen, u.email_storable⟩ hadm.bingxUid

end MoneyWay
