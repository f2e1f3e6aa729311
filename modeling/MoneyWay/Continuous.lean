import MoneyWay.Histories
import MoneyWay.Library.ReadCommitted.Writes

/-!
# The continuous worker

`run_worker_forever` beside all other sessions. It clears its wake flag, drains the
queue with one session for each transfer and waits for the flag or for the poll interval. A
connection of its own listens for the notifications of commits: each one is on its way until
it sets the flag or the connection is lost with it.

## Main definitions

- `Stage`, `Listener` — where the loop is, and what its connection has still to deliver
- `ContinuousWorker.step` — one step of the loop, of the listener or of a session
- `ContinuousWorker.Fresh` — the invariant: what has been delivered while the flag is unset
  was there at the last claim

## Main results

- `no_lost_wakeup` — a worker that waits with its flag unset has looked at every transfer
  it has been told of
-/

set_option autoImplicit false

namespace MoneyWay

open Keyed ReadCommitted Python

/-- The payout task `id` has been committed. -/
def Database.HasTransfer (d : Database) (id : String) : Prop :=
  (d.bingxTransfers.find? id).isSome = true

instance (d : Database) (id : String) : Decidable (d.HasTransfer id) :=
  inferInstanceAs (Decidable (_ = true))

theorem Database.HasTransfer.replay {d : Database} {id : String} (h : d.HasTransfer id)
    (ws : List Write) : (ReadCommitted.replay ws d).HasTransfer id := by
  obtain ⟨x, hx⟩ := Option.isSome_iff_exists.mp h
  exact Option.isSome_iff_exists.mpr (Database.exists_transfer_replay ws hx)

/-- The payout tasks a step has inserted, if it has sent the notification of the channel. -/
def announced (d d' : Database) : Option (List String) :=
  if notifyChannelBingxTransfers ∈ d'.notifications.drop d.notifications.length then
    some ((d'.bingxTransfers.rows.filter fun x => !decide (d.HasTransfer x.id)).map
      BingxTransfer.id)
  else none

theorem hasTransfer_of_announced {d d' : Database} {ids : List String} {id : String}
    (h : announced d d' = some ids) (hid : id ∈ ids) : d'.HasTransfer id := by
  unfold announced at h
  split at h
  · cases h
    obtain ⟨x, hx, rfl⟩ := List.mem_map.mp hid
    show (d'.bingxTransfers.find? x.id).isSome = true
    rw [Table.find?_of_mem (List.mem_filter.mp hx).1]
    rfl
  · cases h

/-- Where the loop is: at its head, in `_drain` between two transfers or in
`_process_in_transaction` with a session, or in the wait. -/
inductive Stage where
  | head
  | draining
  | processing (i : ℕ)
  | waiting
  deriving DecidableEq

/-- The connection of the listener. After a failed `LISTEN` it is open and deaf; a listening
one has the notifications that are on their way, oldest first, each with the payout tasks its
transaction has inserted. -/
inductive Listener where
  | closed
  | deaf
  | listening (queue : List (List String))
  deriving DecidableEq

namespace Listener

/-- A commit sends its notification to a connection that listens. -/
def post : Option (List String) → Listener → Listener
  | some ids, .listening queue => .listening (queue ++ [ids])
  | _, l => l

/-- What is on its way. -/
def queue : Listener → List (List String)
  | .listening q => q
  | _ => []

theorem mem_queue_post {o : Option (List String)} {l : Listener} {ids : List String}
    (h : ids ∈ (l.post o).queue) : ids ∈ l.queue ∨ o = some ids := by
  cases o with
  | none => exact .inl h
  | some new =>
    cases l with
    | closed | deaf => exact .inl h
    | listening q =>
      rcases List.mem_append.mp h with h | h
      · exact .inl h
      · exact .inr (congrArg some (List.mem_singleton.mp h).symm)

end Listener

/-- What `_process_in_transaction` returns from session `i` with this transition. -/
def returned? (i : ℕ) (x : Transition signature) : Option Bool :=
  match x.commit? with
  | some ⟨j, _, .done (.processed found), _⟩ => if j = i then some found else none
  | _ => none

/-- Where the loop is after a transition of the sessions: a transfer found calls for the next
claim, an empty queue or an exception ends the drain. -/
def Stage.after (x : Transition signature) : Stage → Stage
  | .processing i =>
    match returned? i x with
    | some true => .draining
    | some false => .waiting
    | none => if (x.after.sessions.find? i).isSome then .processing i else .waiting
  | s => s

/-- `run_worker_forever` and the system around it. The last three fields are a record of
the history: the payout tasks of the notifications delivered so far, the committed database at
the start of the last claim, and whether the last drain ended with an empty claim. -/
structure ContinuousWorker where
  world : World signature
  stage : Stage
  wake : Bool
  listener : Listener
  delivered : List String
  claimed : Database
  drained : Bool

namespace ContinuousWorker

/-- What happens next: an operation of a session (also of the worker's own), a step of
the loop, or something at the listener's connection. -/
inductive Event where
  | session (a : Action signature)
  | connect
  | connectDeaf
  | disconnect
  | deliver
  | clear
  | claim (i : ℕ)
  | acquireFails
  | wakeUp
  | timeout

def initial (start : Shared signature) : ContinuousWorker where
  world := .idle start
  stage := .head
  wake := false
  listener := .closed
  delivered := []
  claimed := start.db
  drained := false

/-- One operation of a session. -/
def advance (m : ContinuousWorker) (a : Action signature) (w : World signature) :
    ContinuousWorker :=
  let x : Transition signature := ⟨m.world, a, w⟩
  { m with
    world := w
    stage := m.stage.after x
    listener := m.listener.post (announced m.world.shared.db w.shared.db)
    drained :=
      match m.stage with
      | .processing i => decide (returned? i x = some false)
      | _ => m.drained }

def step (unicode : Unicode) (settings : WorkerSettings) (m : ContinuousWorker) :
    Event → Option ContinuousWorker
  | .session a => (m.world.step (bank unicode) a).map (m.advance a)
  | .connect =>
    if m.stage = .head ∧ m.listener = .closed then some { m with listener := .listening [] }
    else none
  | .connectDeaf =>
    -- `add_listener` has raised: the connection stays in `listener`
    if m.stage = .head ∧ m.listener = .closed then some { m with listener := .deaf } else none
  | .disconnect => some { m with listener := .closed }
  | .deliver =>
    match m.listener with
    | .listening (ids :: queue) =>
      some { m with
        wake := true
        listener := .listening queue
        delivered := m.delivered ++ ids }
    | _ => none
  | .clear =>
    if m.stage = .head ∧ m.listener ≠ .closed then
      some { m with wake := false, stage := .draining }
    else none
  | .claim i =>
    if m.stage = .draining then
      (m.world.step (bank unicode) (.start i (.processTransfer settings))).map fun w =>
        { m with world := w, stage := .processing i, claimed := m.world.shared.db }
    else none
  | .acquireFails =>
    if m.stage = .draining then some { m with stage := .waiting, drained := false } else none
  | .wakeUp =>
    if m.stage = .waiting ∧ m.wake = true then some { m with stage := .head } else none
  | .timeout => if m.stage = .waiting then some { m with stage := .head } else none

/-- Take steps in order, as long as each can be taken. -/
def steps (unicode : Unicode) (settings : WorkerSettings) (m : ContinuousWorker) :
    List Event → Option ContinuousWorker
  | [] => some m
  | e :: es => (m.step unicode settings e).bind fun m' => m'.steps unicode settings es

/-- What the loop and the system reach, with any interleaving of their steps. -/
inductive Reachable (unicode : Unicode) (settings : WorkerSettings) (start : Shared signature) :
    ContinuousWorker → Prop
  | initial : Reachable unicode settings start (.initial start)
  | step {m m' : ContinuousWorker} {e : Event} : Reachable unicode settings start m →
      m.step unicode settings e = some m' → Reachable unicode settings start m'

/-- What has been delivered or is on its way has been committed, and as long as the flag is
unset a claim in progress, or the empty claim before the wait, started after the commit of all
that has been delivered. -/
structure Fresh (m : ContinuousWorker) : Prop where
  queued : ∀ ids ∈ m.listener.queue, ∀ id ∈ ids, m.world.shared.db.HasTransfer id
  delivered : ∀ id ∈ m.delivered, m.world.shared.db.HasTransfer id
  processing : m.wake = false → ∀ i, m.stage = .processing i →
    ∀ id ∈ m.delivered, m.claimed.HasTransfer id
  waiting : m.wake = false → m.stage = .waiting → m.drained = true →
    ∀ id ∈ m.delivered, m.claimed.HasTransfer id

section

variable {unicode : Unicode} {settings : WorkerSettings} {start : Shared signature}
  {m m' : ContinuousWorker} {e : Event}

theorem Reachable.steps (h : Reachable unicode settings start m) {es : List Event}
    (hs : m.steps unicode settings es = some m') : Reachable unicode settings start m' := by
  induction es generalizing m with
  | nil =>
    obtain rfl : m = m' := Option.some.inj hs
    exact h
  | cons e es ih =>
    obtain ⟨m₁, hstep, hs⟩ := Option.bind_eq_some_iff.mp hs
    exact ih (h.step hstep) hs

/-- The sessions beside the loop move as in the system alone. -/
theorem step_world (h : m.step unicode settings e = some m') :
    m'.world = m.world ∨ ∃ a, m.world.step (bank unicode) a = some m'.world := by
  cases e with
  | session a =>
    obtain ⟨w, hw, rfl⟩ := Option.map_eq_some_iff.mp h
    exact .inr ⟨a, hw⟩
  | claim i =>
    simp only [step] at h
    split at h
    · obtain ⟨w, hw, rfl⟩ := Option.map_eq_some_iff.mp h
      exact .inr ⟨_, hw⟩
    · cases h
  | disconnect =>
    cases h
    exact .inl rfl
  | deliver =>
    simp only [step] at h
    split at h
    · cases h
      exact .inl rfl
    · cases h
  | connect | connectDeaf | clear | acquireFails | wakeUp | timeout =>
    simp only [step] at h
    split at h
    · cases h
      exact .inl rfl
    · cases h

theorem Reachable.exists_run (h : Reachable unicode settings start m) :
    ∃ tr, Run (bank unicode) start tr m.world := by
  induction h with
  | initial => exact ⟨[], .nil⟩
  | step hm hstep ih =>
    obtain ⟨tr, hr⟩ := ih
    rcases step_world hstep with he | ⟨a, hw⟩
    · exact ⟨tr, he ▸ hr⟩
    · exact ⟨_, hr.snoc hw⟩

/-- A committed payout task stays in the table. -/
theorem hasTransfer_step {id : String} (h : m.step unicode settings e = some m')
    (hid : m.world.shared.db.HasTransfer id) : m'.world.shared.db.HasTransfer id := by
  rcases step_world h with he | ⟨a, hw⟩
  · rw [he]
    exact hid
  · obtain ⟨ws, hdb⟩ := World.step_replay hw
    rw [hdb]
    exact hid.replay ws

/-- The loop is with a session after a transition only if it was with it before. -/
theorem stage_of_after_processing {x : Transition signature} {s : Stage} {i : ℕ}
    (h : s.after x = .processing i) : s = .processing i := by
  cases s with
  | processing j =>
    simp only [Stage.after] at h
    split at h
    · cases h
    · cases h
    · split at h
      · exact h
      · cases h
  | head | draining | waiting => exact h

/-- The loop waits after a transition if it did before, or if its session has ended. -/
theorem stage_of_after_waiting {x : Transition signature} {s : Stage}
    (h : s.after x = .waiting) : s = .waiting ∨ ∃ i, s = .processing i := by
  cases s with
  | processing i => exact .inr ⟨i, rfl⟩
  | waiting => exact .inl rfl
  | head | draining => cases h

/-- The step lemma. -/
theorem Fresh.step (hf : m.Fresh) (h : m.step unicode settings e = some m') : m'.Fresh := by
  have hdelivered : ∀ id ∈ m.delivered, m'.world.shared.db.HasTransfer id :=
    fun id hid => hasTransfer_step h (hf.delivered id hid)
  have hqueued : ∀ ids ∈ m.listener.queue, ∀ id ∈ ids, m'.world.shared.db.HasTransfer id :=
    fun ids hids id hid => hasTransfer_step h (hf.queued ids hids id hid)
  cases e with
  | session a =>
    obtain ⟨w, hw, rfl⟩ := Option.map_eq_some_iff.mp h
    refine ⟨fun ids hids id hid => ?_, hdelivered, fun hwake i hstage => ?_,
      fun hwake hstage hdrained => ?_⟩
    · rcases Listener.mem_queue_post hids with hids | hnew
      · exact hqueued ids hids id hid
      · exact hasTransfer_of_announced hnew hid
    · exact hf.processing hwake i (stage_of_after_processing hstage)
    · -- the drain that ends here had its last claim while the flag was unset
      rcases stage_of_after_waiting hstage with hs | ⟨i, hs⟩
      · have hdrained : m.drained = true := by
          simpa only [advance, hs] using hdrained
        exact hf.waiting hwake hs hdrained
      · exact hf.processing hwake i hs
  | claim i =>
    simp only [ContinuousWorker.step] at h
    split at h
    · obtain ⟨w, hw, rfl⟩ := Option.map_eq_some_iff.mp h
      exact ⟨hqueued, hdelivered, fun _ _ _ => hf.delivered, nofun⟩
    · cases h
  | deliver =>
    simp only [ContinuousWorker.step] at h
    split at h
    · next ids queue hl =>
      cases h
      rw [hl] at hqueued
      refine ⟨fun ids' hids => hqueued ids' (List.mem_cons_of_mem _ hids), fun id hid => ?_, nofun,
        nofun⟩
      rcases List.mem_append.mp hid with hid | hid
      · exact hdelivered id hid
      · exact hqueued ids List.mem_cons_self id hid
    · cases h
  | disconnect =>
    cases h
    exact ⟨nofun, hdelivered, hf.processing, hf.waiting⟩
  | connect | connectDeaf =>
    simp only [ContinuousWorker.step] at h
    split at h
    · cases h
      exact ⟨nofun, hdelivered, hf.processing, hf.waiting⟩
    · cases h
  | clear | wakeUp | timeout =>
    simp only [ContinuousWorker.step] at h
    split at h
    · cases h
      exact ⟨hqueued, hdelivered, nofun, nofun⟩
    · cases h
  | acquireFails =>
    simp only [ContinuousWorker.step] at h
    split at h
    · cases h
      exact ⟨hqueued, hdelivered, nofun, nofun⟩
    · cases h

theorem Reachable.fresh (h : Reachable unicode settings start m) : m.Fresh := by
  induction h with
  | initial => exact ⟨nofun, nofun, nofun, nofun⟩
  | step _ hstep ih => exact ih.step hstep

end

end ContinuousWorker

open ContinuousWorker

/-- A worker that waits with its flag unset after a drain without an exception has started
its last, empty claim after the commit of every payout task whose notification it has got. -/
theorem no_lost_wakeup {unicode : Unicode} {settings : WorkerSettings} {start : Shared signature}
    {m : ContinuousWorker} (h : Reachable unicode settings start m) (hstage : m.stage = .waiting)
    (hwake : m.wake = false) (hdrained : m.drained = true) :
    ∀ id ∈ m.delivered, m.claimed.HasTransfer id :=
  h.fresh.waiting hwake hstage hdrained

/-- The deposit is paid on hold while the worker is about to start its loop; it is told, and
its drain finds nothing that is due. -/
def heldPayment : List Event :=
  .connect :: (openDeposit ++ commit 0 :: .start 0 (.sbpPaymentWebhook alicePayment 5) ::
      runs 0 6 ++ .give 0 "payout" :: runs 0 4 ++ [commit 0]).map .session ++
    [.deliver, .clear, .claim 1, .session (.run 1), .session (.run 1), .session (.run 1)]

theorem no_lost_wakeup_held : ∃ m : ContinuousWorker, m.delivered = ["payout"] ∧
    ∀ id ∈ m.delivered, m.claimed.HasTransfer id := by
  have hobs : ((initial launch).steps .ascii worker heldPayment).map
      (fun m => (m.stage, m.wake, m.drained, m.delivered)) =
        some (.waiting, false, true, ["payout"]) := by decide
  obtain ⟨m, hsteps, he⟩ := Option.map_eq_some_iff.mp hobs
  simp only [Prod.mk.injEq] at he
  obtain ⟨hstage, hwake, hdrained, hdelivered⟩ := he
  exact ⟨m, hdelivered, no_lost_wakeup (Reachable.initial.steps hsteps) hstage hwake hdrained⟩

end MoneyWay
