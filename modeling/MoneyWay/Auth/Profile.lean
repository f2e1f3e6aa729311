import MoneyWay.Auth.Sessions

/-!
# `PATCH /users/me`

The authentication reads the whole row of the user, and the handler writes both editable
fields back: those that the request supplies, and the others as they were read. Both happen in
the one transaction of the request, but under `READ COMMITTED` another request may commit in
between.

## Main definitions

- `updateUserProfile` — the handler, behind `getCurrentUser`
- `lastSupplied` — what the requests of a history say a field should be
- `UpToDate` — a request commits nothing stale

## Main results

- `profile_kept_iff` — in a history the fields are what the requests say, in every state,
  exactly if each commit is up to date
-/

set_option autoImplicit false

namespace MoneyWay.Auth.Profile

open Keyed ReadCommitted Prog

/-! ## The request -/

/-- `model_fields_set` with the values: a field that is not supplied is `none`. -/
structure UserUpdateRequest where
  fullName : Option (Option String)
  bingxUid : Option (Option String)

/-- The bearer token and the body of a `PATCH /users/me`. -/
structure Request where
  credentials : Option String
  payload : UserUpdateRequest

inductive Error where
  | auth (e : Auth.Error)
  | assertionError
  deriving DecidableEq, Repr

abbrev Database := Table User.id

instance : Store Database User String where
  apply := fun u d => d.put u
  target := fun u => some u.id
  removes := fun _ => false
  row := fun id d => d.find? id
  row_apply := fun u id d h => by
    rw [Table.find?_put_ne d fun he => h (congrArg some he)]
  row_apply_self := fun u id d h => by
    obtain rfl := Option.some.inj h
    rw [Table.find?_put_self, if_neg Bool.false_ne_true]

abbrev signature : Signature where
  Db := Database
  Write := User
  Row := String
  Request := Empty
  Answer := Empty
  Error := Error
  Ident := Empty
  External := Timestamp
  Event := ℕ
  Job := Request
  Result := User

abbrev Handler := Prog signature

abbrev Statement (β : Type) := Stmt Database User String Error β

namespace Sql

/-- `SELECT … FROM users WHERE id = $1`. -/
def getUserById (id : String) : Statement (Option User) := fun _ d => .ok { value := d.find? id }

/-- `UPDATE users SET full_name = $2, bingx_uid = $3, updated_at = $4 WHERE id = $1 RETURNING`. -/
def updateProfile (id : String) (fullName bingxUid : Option String) (now : Timestamp) :
    Statement (Option User) := fun _ d =>
  match d.find? id with
  | none => .ok { value := none }
  | some u =>
    let u' := { u with fullName, bingxUid, updatedAt := now }
    .ok { value := some u', writes := [u'] }

end Sql

open Profile.Sql

def raise {α : Type} (e : Error) : Handler α := .throw e

variable (security : Security)

/-- The active user of the access token. -/
def getCurrentUser (credentials : Option String) : Handler User := do
  match credentials with
  | none => raise (.auth (.unauthorized "Authentication required"))
  | some token =>
    match decodeJwtToken security token .access (← Prog.now) with
    | .error e => raise (.auth e)
    | .ok payload =>
      match (← exec (getUserById payload.sub)).filter (·.isActive) with
      | none => raise (.auth (.unauthorized "User is not active"))
      | some user => return user

def updateUserProfile (user : User) (payload : UserUpdateRequest) : Handler User := do
  let fullName := payload.fullName.getD user.fullName
  let bingxUid := payload.bingxUid.getD user.bingxUid
  let now ← Prog.now
  match ← exec (updateProfile user.id fullName bingxUid now) with
  | none => raise .assertionError
  | some updatedUser => return updatedUser

def updateCurrentUser (r : Request) : Handler User := do
  let user ← getCurrentUser security r.credentials
  updateUserProfile user r.payload

/-- Every request is one transaction. -/
def profiles : System signature where
  program := updateCurrentUser security
  autocommit := fun _ => false
  send := fun _ now => now
  now := id
  event := fun delta now => some (now + delta)

/-! ## What a request commits -/

/-- The fields a user can change. -/
inductive Field where
  | fullName
  | bingxUid
  deriving DecidableEq

def Field.of : Field → User → Option String
  | .fullName => User.fullName
  | .bingxUid => User.bingxUid

/-- What a request supplies for a field. -/
def UserUpdateRequest.supplied (p : UserUpdateRequest) : Field → Option (Option String)
  | .fullName => p.fullName
  | .bingxUid => p.bingxUid

/-- The user a token is about. -/
def Request.userId? (r : Request) : Option String :=
  (r.credentials.bind security.payload?).map (·.sub)

/-- The row as the authentication of the request has read it. -/
def Txn.read? (id : String) (x : Txn signature) : Option User :=
  x.snapshots[0]?.bind fun q => q.db.find? id

/-- The row `u` is written with what the request supplies, and else with what it has read. -/
structure Updated (r : Request) (x : Txn signature) (s : Shared signature) (u₀ u u' : User) :
    Prop where
  user : r.userId? security = some u.id
  read : Txn.read? u.id x = some u₀
  row : s.db.find? u.id = some u
  written : x.pending = [u']
  key : u'.id = u.id
  field : ∀ f : Field, f.of u' = (r.payload.supplied f).getD (f.of u₀)

/-- The contract of the requests. -/
def updates : Contract signature where
  inv := fun _ => True
  guar := fun _ _ => True
  ask := fun _ _ _ _ => True
  sends := fun _ _ _ => True
  post := fun r _ x s => ∃ u₀ u u', Updated security r x s u₀ u u'
  single := fun _ _ => True

variable {security}

/-- Every request meets the contract. -/
theorem meets_updateCurrentUser (r : Request) (s : Shared signature) :
    (updates security).Ok (profiles security) r (updateCurrentUser security r) {} s := by
  refine Contract.Wp.bind ?_
  unfold getCurrentUser
  split
  · trivial
  · next token htoken =>
    refine Contract.Wp.now fun s₁ now₁ _ => ?_
    split
    · trivial
    · next p hdecode =>
      refine Contract.Wp.bind (Contract.Wp.exec fun q _ blocked eff hq => ⟨trivial, ?_⟩)
      obtain rfl := Except.ok.inj hq
      dsimp only
      split
      · trivial
      · next u₀ hu₀ =>
        have hread := Option.eq_some_of_filter_eq_some hu₀
        have hid : u₀.id = p.sub := Table.key_of_find? hread
        refine Contract.Wp.now fun s₂ now _ =>
          Contract.Wp.bind (Contract.Wp.exec fun s₃ _ blocked eff hq => ⟨trivial, ?_⟩)
        unfold updateProfile at hq
        split at hq
        · cases hq
          trivial
        · next u hu =>
          cases hq
          have hkey : u.id = u₀.id := Table.key_of_find? hu
          -- the row is locked from the `UPDATE` on
          refine fun s₄ h₄ => ⟨u₀, u, _, ?_, ?_, ?_, rfl, rfl, ?_⟩
          · rw [Request.userId?, htoken, Option.bind_some, decodeJwtToken_ok hdecode, hkey, hid]
            rfl
          · show q.db.find? u.id = some u₀
            rw [hkey, hid]
            exact hread
          · have hlock := h₄.rows u.id .noKeyUpdate (by simp [Txn.executed, Store.target]) rfl
            rw [hkey] at hlock ⊢
            exact hlock.trans hu
          · intro f
            cases f <;> rfl

theorem valid_updates : (updates security).Valid (profiles security) fun _ => True :=
  ⟨fun r _ s _ => meets_updateCurrentUser r s, fun _ _ _ _ _ _ _ _ _ => ⟨trivial, trivial⟩,
    fun _ _ _ _ _ => ⟨trivial, trivial⟩⟩

/-! ## Histories -/

section

variable (security)

/-- What the commit of a request supplies for a field of the user. -/
def supplies? (id : String) (f : Field) (x : Transition signature) : Option (Option String) :=
  x.commit?.bind fun s =>
    if s.job.userId? security = some id then s.job.payload.supplied f else none

/-- What the last committed request that has supplied the field says it is, or what it was at
the start. The newest transition comes first. -/
def lastSupplied (u : User) (f : Field) (tr : List (Transition signature)) : Option String :=
  (tr.findSome? (supplies? security u.id f)).getD (f.of u)

/-- A request of the user that leaves the field out has read what is still in the row when it
commits. -/
def UpToDate (id : String) (f : Field) (x : Transition signature) : Prop :=
  ∀ s v, x.Commits s v → s.job.userId? security = some id → s.job.payload.supplied f = none →
    (Txn.read? id s.txn).map f.of = (x.before.shared.db.find? id).map f.of

/-- No update of the field is lost: in every state of the history it is what the last request
that has supplied it says, and no other request changes it. -/
structure Kept (start : Shared signature) (u : User) (f : Field)
    (tr : List (Transition signature)) : Prop where
  value : ∀ late early w, tr = late ++ early → Run (profiles security) start early w →
    (w.shared.db.find? u.id).map f.of = some (lastSupplied security u f early)
  unsupplied : ∀ x ∈ tr, ∀ s v, x.Commits s v → s.job.payload.supplied f = none →
    (x.after.shared.db.find? u.id).map f.of = (x.before.shared.db.find? u.id).map f.of

end

section

variable {start : Shared signature} {tr : List (Transition signature)} {w w' : World signature}
  {a : Action signature} {x : Transition signature} {id : String} {f : Field}

theorem starts_any (tr : List (Transition signature)) :
    Contract.Starts (fun _ : Request => True) tr := fun _ _ _ _ _ => trivial

/-- What a commit does to a user's row. -/
theorem row_of_commits (hr : Run (profiles security) start tr w) (hx : x ∈ tr)
    {s : Session signature} {v : User} (hc : x.Commits s v) (id : String) :
    s.job.userId? security = some id ∧ (∃ u₀ u u', Txn.read? id s.txn = some u₀ ∧
        x.before.shared.db.find? id = some u ∧ x.after.shared.db.find? id = some u' ∧
        ∀ f : Field, f.of u' = (s.job.payload.supplied f).getD (f.of u₀)) ∨
      s.job.userId? security ≠ some id ∧
        x.after.shared.db.find? id = x.before.shared.db.find? id := by
  obtain ⟨⟨u₀, u, u', h⟩, -, he⟩ := valid_updates.commits trivial hr (starts_any tr) hx hc rfl
  have hafter : x.after.shared.db = x.before.shared.db.put u' := by
    rw [he, h.written]
    rfl
  by_cases hid : u.id = id
  · subst hid
    refine .inl ⟨h.user, u₀, u, u', h.read, h.row, ?_, h.field⟩
    rw [hafter, ← h.key, Table.find?_put_self]
  · refine .inr ⟨fun he => hid (Option.some.inj (h.user.symm.trans he)), ?_⟩
    rw [hafter, Table.find?_put_ne _ (h.key ▸ hid)]

/-- Between commits the table stays. -/
theorem db_of_not_commits (hr : Run (profiles security) start tr w)
    (hstep : w.step (profiles security) a = some w')
    (h : ∀ s v, ¬ Transition.Commits ⟨w, a, w'⟩ s v) : w'.shared.db = w.shared.db := by
  have hchange := (valid_updates.run trivial hr (starts_any tr)).change hstep
  rcases hchange.together fun _ _ => rfl with ⟨-, he⟩ | ⟨s, v, hc, -⟩
  · exact he
  · exact absurd hc (h s v)

theorem supplies?_eq_none (h : ∀ s v, ¬ x.Commits s v) : supplies? security id f x = none := by
  rw [supplies?, Transition.commit?_eq_none h]
  rfl

theorem supplies?_of_commits {s : Session signature} {v : User} (hc : x.Commits s v) :
    supplies? security id f x =
      if s.job.userId? security = some id then s.job.payload.supplied f else none := by
  rw [supplies?, hc.commit?]
  rfl

/-- The step lemma: an up-to-date transition leaves in the field what it supplies for it, or
what was there. -/
theorem field_step (hr : Run (profiles security) start tr w)
    (hstep : w.step (profiles security) a = some w') (hu : UpToDate security id f ⟨w, a, w'⟩)
    {y : Option String} (h : (w.shared.db.find? id).map f.of = some y) :
    (w'.shared.db.find? id).map f.of = some ((supplies? security id f ⟨w, a, w'⟩).getD y) := by
  by_cases hc : ∃ s v, Transition.Commits ⟨w, a, w'⟩ s v
  · obtain ⟨s, v, hc⟩ := hc
    rw [supplies?_of_commits hc]
    rcases row_of_commits (hr.snoc hstep) List.mem_cons_self hc id with
      ⟨hid, u₀, u, u', hread, hbefore, hafter, hfield⟩ | ⟨hne, he⟩
    · rw [if_pos hid]
      have hafter : w'.shared.db.find? id = some u' := hafter
      rw [hafter, Option.map_some, hfield f]
      cases hs : s.job.payload.supplied f with
      | some new => rfl
      | none =>
        -- what it writes back is what it has read, and that is what was there
        have hstill := hu s v hc hid hs
        rw [hread] at hstill
        exact hstill.trans h
    · rw [if_neg hne]
      exact (congrArg _ he).trans h
  · have hc : ∀ s v, ¬ Transition.Commits ⟨w, a, w'⟩ s v := fun s v h => hc ⟨s, v, h⟩
    rw [supplies?_eq_none hc, db_of_not_commits hr hstep hc]
    exact h

theorem lastSupplied_cons (u : User) (x : Transition signature) (tr : List (Transition signature)) :
    lastSupplied security u f (x :: tr) =
      (supplies? security u.id f x).getD (lastSupplied security u f tr) := by
  rw [lastSupplied, List.findSome?_cons]
  cases supplies? security u.id f x <;> rfl

/-- The run lemma. -/
theorem field_run {u : User} (hu : start.db.find? u.id = some u)
    (hr : Run (profiles security) start tr w) (h : ∀ x ∈ tr, UpToDate security u.id f x) :
    (w.shared.db.find? u.id).map f.of = some (lastSupplied security u f tr) := by
  induction hr with
  | nil => simp [World.idle, hu, lastSupplied]
  | @snoc tr w w' a hr hstep ih =>
    rw [lastSupplied_cons]
    exact field_step hr hstep (h _ List.mem_cons_self)
      (ih fun x hx => h x (List.mem_cons_of_mem _ hx))

/-- However the requests run side by side, no update of a field is lost exactly if each request
that leaves the field out commits with what it has read still in the row. -/
theorem profile_kept_iff {u : User} (hu : start.db.find? u.id = some u)
    (hr : Run (profiles security) start tr w) (f : Field) :
    Kept security start u f tr ↔ ∀ x ∈ tr, UpToDate security u.id f x := by
  constructor
  · intro h x hx s v hc hid hs
    have hkept := h.unsupplied x hx s v hc hs
    rcases row_of_commits hr hx hc u.id with ⟨-, u₀, u₁, u', hread, -, hafter, hfield⟩ | ⟨hne, -⟩
    · rw [← hkept, hread, hafter, Option.map_some, Option.map_some, hfield f, hs]
      rfl
    · exact absurd hid hne
  · intro h
    refine ⟨fun late early w' htr hearly => ?_, fun x hx s v hc hs => ?_⟩
    · exact field_run hu hearly fun x hx => h x (htr ▸ List.mem_append_right _ hx)
    · rcases row_of_commits hr hx hc u.id with ⟨hid, u₀, u₁, u', hread, -, hafter, hfield⟩ | ⟨-, he⟩
      · rw [← h x hx s v hc hid hs, hread, hafter, Option.map_some, Option.map_some, hfield f, hs]
        rfl
      · rw [he]

end

/-! ## Two requests -/

def alice : User where
  id := "alice"
  email := "alice@example.com"
  passwordHash := "secret"
  fullName := some "Alice"
  bingxUid := some "111"
  role := .user
  isActive := true
  isVerified := false
  createdAt := 0
  updatedAt := 0
  lastLoginAt := none

def launch : Shared signature := ⟨(Table.empty _).put alice, 0⟩

/-- Every token is Alice's. -/
def demo : Security where
  encode p := p.jti
  payload? token := some ⟨"alice", .access, token, 0, days 30⟩
  timely p now := p.iat ≤ now ∧ now < p.exp
  hashToken token := token
  hashPassword _ password := password
  verifyPassword password hash := password = hash

def renames : Request := ⟨some "a1", ⟨some (some "Alice B."), none⟩⟩

def moves : Request := ⟨some "a1", ⟨none, some (some "222")⟩⟩

/-- A request up to its end. -/
def patch (i : ℕ) (r : Request) : List (Action signature) := .start i r :: List.replicate 5 (.run i)

/-- `UpToDate`, evaluated. -/
def upToDate (security : Security) (id : String) (f : Field) (x : Transition signature) : Bool :=
  match x.commit? with
  | some s =>
    !decide (s.job.userId? security = some id ∧ s.job.payload.supplied f = none) ||
      decide ((Txn.read? id s.txn).map f.of = (x.before.shared.db.find? id).map f.of)
  | none => true

theorem upToDate_of_eq_true {security : Security} {id : String} {f : Field}
    {x : Transition signature} (h : upToDate security id f x = true) :
    UpToDate security id f x := by
  intro s v hc hid hs
  rw [upToDate, hc.commit?] at h
  simpa [hid, hs] using h

/-- Alice changes her name and then her recipient. -/
theorem profile_kept_iff_in_turn : ∃ tr w, Run (profiles demo) launch tr w ∧
    Kept demo launch alice .fullName tr := by
  obtain ⟨tr, w, hr, -, hobs⟩ := Run.exists_of_trace (profiles demo) launch
    (patch 1 renames ++ patch 2 moves) (fun r => r.1.all (upToDate demo "alice" .fullName))
    (b := true) (by decide)
  exact ⟨tr, w, hr, (profile_kept_iff rfl hr .fullName).mpr fun x hx =>
    upToDate_of_eq_true (List.all_eq_true.mp hobs x hx)⟩

/-- Her new name is lost when the request for the recipient has authenticated before. -/
theorem not_profile_kept : ¬ ∀ (security : Security) (start : Shared signature)
    (tr : List (Transition signature)) (w : World signature) (u : User),
    start.db.find? u.id = some u → Run (profiles security) start tr w →
    ∀ f, Kept security start u f tr := by
  intro h
  obtain ⟨tr, w, hr, -, hobs⟩ := Run.exists_of_trace (profiles demo) launch
    ([.start 2 moves, .run 2, .run 2] ++ patch 1 renames ++ [.run 2, .run 2, .run 2])
    (fun r => ((r.2.shared.db.find? "alice").map Field.fullName.of,
      lastSupplied demo alice .fullName r.1))
    (b := (some (some "Alice"), some "Alice B.")) (by decide)
  obtain ⟨hrow, hlast⟩ := Prod.mk.inj hobs
  have hkept := (h demo launch tr w alice rfl hr .fullName).value [] tr w rfl hr
  rw [hlast] at hkept
  have hname := hrow.symm.trans hkept
  exact absurd hname (by decide)

end MoneyWay.Auth.Profile
