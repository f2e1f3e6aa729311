import MoneyWay.Sessions.Rules

/-!
# Sessions of the administrator

Each of these requests writes in one statement, and what it has written stays locked
until it commits.
-/

set_option autoImplicit false

namespace MoneyWay

open Keyed ReadCommitted Python Prog Sql

section Admin

variable {unicode : Unicode} {x : Txn signature} {s : Shared signature}

theorem meets_addBlacklistEntry {r : BlacklistCreateRequest} :
    (payments unicode).Ok (bank unicode) (.addBlacklistEntry r)
      (program unicode (.addBlacklistEntry r)) {} s := by
  refine Contract.Wp.bind (wp_uuid fun id => wp_now fun s₁ now h₁ =>
    Contract.Wp.bind (wp_exec fun s₂ h₂ blocked eff hq => ⟨.first rfl, ?_⟩))
  have he := upsertBlacklist_ok hq
  intro s₃ h₃
  have hlock : (.blacklist (blacklistEntry unicode r id now).key, .noKeyUpdate) ∈
      (Txn.executed (Txn.given {} id) s₂ eff).held := by
    refine mem_held_executed (w := .blacklist (blacklisted s₂.db (blacklistEntry unicode r id now)))
      (by simp [he]) ?_
    rw [Write.target, key_blacklisted]
  have hpending : (Txn.executed (Txn.given {} id) s₂ eff).pending =
      [.blacklist (blacklisted s₃.db (blacklistEntry unicode r id now))] := by
    rw [blacklisted_congr (later_blacklist h₃ hlock)]
    simp [Txn.executed, he]
  exact ⟨.added hpending, rfl⟩

theorem meets_manageBlacklist {change : BlacklistChange} :
    (payments unicode).Ok (bank unicode) (.manageBlacklist change)
      (program unicode (.manageBlacklist change)) {} s := by
  refine Contract.Wp.bind ?_
  cases change with
  | create id form =>
    refine wp_exec fun s₁ h₁ blocked eff hq => ⟨.first rfl, fun s₂ h₂ => ?_⟩
    obtain ⟨hnew, rfl⟩ := insertBlacklist_ok hq
    have hlock : s₂.db.blacklist.find? (form.entry id).key =
        s₁.db.blacklist.find? (form.entry id).key :=
      later_blacklist (m := .noKeyUpdate) h₂ (by simp [Txn.executed])
    exact ⟨.created (hlock.trans hnew) (by simp [Txn.executed]), rfl⟩
  | edit id form =>
    refine wp_exec fun s₁ h₁ blocked eff hq => ⟨.first rfl, fun s₂ h₂ => ?_⟩
    rcases updateBlacklist_ok hq with rfl | ⟨old, hold, rfl, ⟨hkey, rfl⟩ | ⟨hkey, hfree, rfl⟩⟩
    · exact ⟨.ignored rfl, rfl⟩
    · have hlock : s₂.db.blacklist.find? old.key = s₁.db.blacklist.find? old.key :=
        later_blacklist (m := .noKeyUpdate) h₂ (by simp [Txn.executed, hkey])
      exact ⟨.edited (hlock.trans hold) hkey (by simp [Txn.executed]), rfl⟩
    · have hlock (key : BlacklistType × String)
          (hmem : key = old.key ∨ key = (form.entry old.id).key) :
          s₂.db.blacklist.find? key = s₁.db.blacklist.find? key :=
        later_blacklist (m := .noKeyUpdate) h₂ (by simp [Txn.executed, hmem])
      exact ⟨.moved ((hlock _ (.inl rfl)).trans hold) hkey ((hlock _ (.inr rfl)).trans hfree)
        (by simp [Txn.executed]), rfl⟩
  | remove id =>
    refine Contract.Wp.bind (wp_exec fun s₁ h₁ blocked eff hq => ⟨.first rfl, ?_⟩)
    rcases deleteBlacklist_ok hq with rfl | ⟨e, he, rfl, rfl⟩
    · exact trivial
    · intro s₂ h₂
      have hlock : s₂.db.blacklist.find? e.key = s₁.db.blacklist.find? e.key :=
        later_blacklist (m := .noKeyUpdate) h₂ (by simp [Txn.executed])
      exact ⟨.removed (hlock.trans he) (by simp [Txn.executed]), rfl⟩

theorem meets_editPromoCode {id : String} {form : PromoCodeForm} :
    (payments unicode).Ok (bank unicode) (.editPromoCode id form)
      (program unicode (.editPromoCode id form)) {} s := by
  refine Contract.Wp.bind (wp_exec fun s₁ h₁ blocked eff hq => ⟨.first rfl, ?_⟩)
  intro s₂ h₂
  refine ⟨?_, rfl⟩
  rcases updatePromoCode_ok hq with rfl | ⟨p, p', hp, hid, hused, hmax, rfl⟩
  · exact .ignored rfl
  · have hp' : p'.id = id := hid.trans (Table.key_of_find? hp)
    exact .edited ((later_promoCode (m := .noKeyUpdate) h₂ (by simp [Txn.executed, hp'])).trans hp)
      hid hused hmax rfl

/-- A statement that only reads. -/
theorem wp_read {j : Job} {β : Type} {f : Database → β}
    {Q : β → Txn signature → Shared signature → Prop}
    (h : ∀ x' s', x'.held = x.held → x'.pending = x.pending → x'.calls = x.calls →
      Q (f (replay x.pending s'.db)) x' s') :
    (payments unicode).Wp (bank unicode) j (exec fun _ d => .ok { value := f d }) Q x s := by
  refine wp_exec fun s₁ h₁ blocked eff hq => ?_
  obtain rfl := Except.ok.inj hq
  exact ⟨Asks.nil, h _ s₁ (by simp [Txn.executed]) (by simp [Txn.executed]) rfl⟩

theorem meets_transactionDossier {adminId transactionId : String} :
    (payments unicode).Ok (bank unicode) (.transactionDossier adminId transactionId)
      (program unicode (.transactionDossier adminId transactionId)) {} s := by
  refine Contract.Wp.bind (Contract.Wp.bind (Contract.Wp.bind
    (wp_read fun x₁ s₁ hheld₁ hpend₁ hcalls₁ => ?_)))
  split
  · exact trivial
  refine Contract.Wp.bind (wp_read fun x₂ s₂ hheld₂ hpend₂ hcalls₂ =>
    Contract.Wp.bind (wp_read fun x₃ s₃ hheld₃ hpend₃ hcalls₃ =>
    Contract.Wp.bind (wp_read fun x₄ s₄ hheld₄ hpend₄ hcalls₄ =>
    Contract.Wp.bind (wp_read fun x₅ s₅ hheld₅ hpend₅ hcalls₅ => ?_))))
  refine Contract.Wp.bind (wp_writeAuditLog fun s₆ now h₆ => ⟨.first ?_, fun s₇ h₇ => ⟨?_, ?_⟩⟩)
  · rw [hheld₅, hheld₄, hheld₃, hheld₂, hheld₁]
  · have hpending := hpend₅.trans (hpend₄.trans (hpend₃.trans (hpend₂.trans hpend₁)))
    exact .viewed (congrArg (· ++ _) hpending)
  · exact hcalls₅.trans (hcalls₄.trans (hcalls₃.trans (hcalls₂.trans hcalls₁)))

end Admin

end MoneyWay
