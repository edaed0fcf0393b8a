import MacWorker.Scheduler

/-! # Queue rows

One row of the local queue, the check every stored row passes, and the
operations that change a single row. Each operation ends in the row's own
check, so what it can produce is always a valid row; `validate_iff` says what
that check means, field by field. -/
namespace MacWorker.Queue
open Fallible MacWorker.Scheduler

/-! ## Row data -/

structure RunId where
  value : String
  deriving DecidableEq

structure QueueRunReference where
  runId : RunId
  maxParallel : Nat
  deriving DecidableEq

def QueueRunReference.validate (run : QueueRunReference) : Except WorkerError Unit := do
  validateOpaqueIdentifier run.runId.value "run ID"
  ensure (run.maxParallel ≠ 0) (.protocol "run maximum parallelism must be positive")

inductive QueueEntryKind where
  | batch
  | taskTurn
  deriving DecidableEq

inductive CommandSummaryMode where
  | argv
  | shell
  deriving DecidableEq

structure CommandSummary where
  mode : CommandSummaryMode
  argCount : Option Nat
  deriving DecidableEq

def maxArgCount : Nat := 256

def CommandSummary.validate (summary : CommandSummary) : Except WorkerError Unit :=
  match summary.mode, summary.argCount with
  | .argv, some argCount =>
    ensure (1 ≤ argCount ∧ argCount ≤ maxArgCount)
      (.protocol "command summary has an invalid argument count")
  | .shell, none => .ok ()
  | _, _ => .error (.protocol "command summary has an invalid argument count")

/-- One outstanding spawn permit; the token is unique per spawn attempt. -/
structure RunnerSlotReservation where
  reserver : ProcessIdentity
  token : Uuid
  child : Option ProcessIdentity
  deriving DecidableEq

namespace RunnerSlotReservation

def new (reserver : ProcessIdentity) (token : Uuid) :
    Except WorkerError RunnerSlotReservation := do
  reserver.validate
  ensure (token ≠ 0) (.protocol "runner slot token must be unique and non-nil")
  return ⟨reserver, token, none⟩

@[simp] theorem new_eq_ok {reserver token reservation} :
    new reserver token = .ok reservation ↔
      (reserver.Valid ∧ token ≠ 0) ∧ reservation = ⟨reserver, token, none⟩ := by
  unfold new
  simp only [then_eq_ok, ProcessIdentity.validate_eq_ok, ensure_eq_ok, pure_eq_ok, and_assoc]
  exact and_congr_right fun _ => and_congr_right fun _ => eq_comm

theorem check_eq_ok {reserver token u} :
    (do let _ ← new reserver token; pure ()) = Except.ok u ↔
      reserver.Valid ∧ token ≠ 0 := by
  rw [bind_eq_ok]
  simp only [new_eq_ok, pure_eq_ok, and_true, exists_and_left, exists_eq]

def withChild (reservation : RunnerSlotReservation)
    (child : ProcessIdentity) : Except WorkerError RunnerSlotReservation := do
  child.validate
  return { reservation with child := some child }

@[simp] theorem withChild_eq_ok {reservation reservation' : RunnerSlotReservation}
    {child : ProcessIdentity} : reservation.withChild child = .ok reservation' ↔
      child.Valid ∧ reservation' = { reservation with child := some child } := by
  unfold withChild
  rw [then_eq_ok, ProcessIdentity.validate_eq_ok, pure_eq_ok]
  exact and_congr_right fun _ => eq_comm

end RunnerSlotReservation

inductive QueueState where
  | waiting (owner : ProcessIdentity)
  | dispatching (dispatchOwner : ProcessIdentity) (selectedWorker : String) (claimedAtMillis : Nat)
  | parked
  deriving DecidableEq

namespace QueueState

def ownerOpt : QueueState → Option ProcessIdentity
  | .waiting owner => some owner
  | .dispatching owner _ _ => some owner
  | .parked => none

def isWaiting : QueueState → Bool
  | .waiting _ => true
  | _ => false

def isDispatching : QueueState → Bool
  | .dispatching _ _ _ => true
  | _ => false

def validate (state : QueueState) (enqueuedAtMillis : Nat) : Except WorkerError Unit :=
  match state with
  | .waiting owner => owner.validate
  | .dispatching owner selectedWorker claimedAtMillis => do
    owner.validate
    validateWorkerName selectedWorker
    ensure (claimedAtMillis ≠ 0 ∧ enqueuedAtMillis ≤ claimedAtMillis)
      (.protocol "queue claim timestamp predates enqueue timestamp")
  | .parked => .ok ()

end QueueState

structure QueueAbandonmentProof where
  queueId : Nat
  jobId : JobId
  clientId : ClientId
  (selectedWorker projectId worktreeId : String)
  commandSummary : CommandSummary
  requestFingerprint : String
  claimedAtMillis : Nat
  recordedBy : ProcessIdentity
  deriving DecidableEq

/-- The durable restart budget of a turn whose replacement runners keep failing. -/
structure ReplacementFailureBudget where
  lastFailedAtMillis : Nat
  lastPublicCode : String
  consecutiveFailures : Nat
  deriving DecidableEq

namespace ReplacementFailureBudget

def replacementFailureParkAfter : Nat := 5

variable (budget : ReplacementFailureBudget)

def validate : Except WorkerError Unit := do
  ensure (budget.lastFailedAtMillis ≠ 0)
    (.protocol "replacement failure timestamp must be positive")
  ensure (budget.consecutiveFailures ≠ 0) (.protocol "replacement failure count must be positive")
  ensure (isStablePublicCode budget.lastPublicCode = true)
    (.protocol "replacement failure public code is not a stable code")

def new (lastFailedAtMillis : Nat) (lastPublicCode : String) (consecutiveFailures : Nat) :
    Except WorkerError ReplacementFailureBudget := do
  let budget : ReplacementFailureBudget :=
    { lastFailedAtMillis, lastPublicCode, consecutiveFailures }
  budget.validate
  return budget

/-- Fold in one more failure; the same code extends the streak. -/
def applying (publicCode : String) (atMillis : Nat) : Except WorkerError ReplacementFailureBudget :=
  new atMillis publicCode
    (if budget.lastPublicCode = publicCode then min (budget.consecutiveFailures + 1) (2 ^ 32 - 1)
    else 1)

def shouldPark : Bool :=
  decide (budget.consecutiveFailures ≥ replacementFailureParkAfter)

end ReplacementFailureBudget

structure QueueEntry where
  queueId : Nat
  jobId : JobId
  clientId : ClientId
  (projectId worktreeId : String)
  commandSummary : CommandSummary
  requirements : List String
  preference : WorkerPreference
  kind : QueueEntryKind
  run : Option QueueRunReference
  enqueueOwner : ProcessIdentity
  state : QueueState
  preacceptanceAbandonmentProof : Option QueueAbandonmentProof
  cancelRequestedAtMillis : Option Nat
  enqueuedAtMillis : Nat
  slotReservation : Option RunnerSlotReservation
  replacementFailure : Option ReplacementFailureBudget
  deriving DecidableEq

def QueueEntry.ownerOpt (entry : QueueEntry) : Option ProcessIdentity := entry.state.ownerOpt

def QueueEntry.isCancelRequested (entry : QueueEntry) : Bool :=
  entry.cancelRequestedAtMillis.isSome

/-! ## The row check -/

def QueueAbandonmentProof.validate (proof : QueueAbandonmentProof) : Except WorkerError Unit := do
  ensure (proof.queueId ≠ 0) (.protocol "queue ID must be positive")
  validateWorkerName proof.selectedWorker
  validateHexComponent proof.projectId "abandonment proof project ID"
  validateHexComponent proof.worktreeId "abandonment proof worktree ID"
  proof.commandSummary.validate
  proof.recordedBy.validate
  ensure (proof.claimedAtMillis ≠ 0)
    (.protocol "abandonment proof claim timestamp must be positive")

def QueueAbandonmentProof.validateAgainst (proof : QueueAbandonmentProof) (entry : QueueEntry) :
    Except WorkerError Unit := do
  proof.validate
  match entry.state with
  | .dispatching dispatchOwner selectedWorker claimedAtMillis =>
    ensure (proof.queueId = entry.queueId ∧ proof.jobId = entry.jobId ∧
        proof.clientId = entry.clientId ∧ proof.selectedWorker = selectedWorker ∧
        proof.projectId = entry.projectId ∧ proof.worktreeId = entry.worktreeId ∧
        proof.commandSummary = entry.commandSummary ∧ proof.claimedAtMillis = claimedAtMillis)
      (.protocol "abandonment proof does not match its queue reservation")
    ensure (entry.kind = .batch → proof.recordedBy = dispatchOwner)
      (.protocol "batch abandonment proof must match its immutable owner")
  | _ => .error (.protocol "pre-acceptance abandonment proof requires a dispatch reservation")

def validateWorkerPreference : WorkerPreference → Except WorkerError Unit
  | .automatic => .ok ()
  | .pinned worker => validateWorkerName worker

def validateCapability (capability : String) : Except WorkerError Unit :=
  ensure (bytes capability ≠ [] ∧ (bytes capability).length ≤ 128 ∧
      (bytes capability).all isOpaqueByte = true)
    (.protocol "queue capability is invalid")

/-- The loop of `validateRequirements`; `seen` is the set it fills. -/
def validateCapabilities (seen : List String) : List String → Except WorkerError Unit
  | [] => .ok ()
  | capability :: rest => do
    validateCapability capability
    ensure (capability ∉ seen) (.protocol "queue capabilities contain a duplicate")
    validateCapabilities (capability :: seen) rest

def validateRequirements (requirements : List String) : Except WorkerError Unit := do
  ensure (requirements.length ≤ 256) (.protocol "queue capability count exceeds its limit")
  validateCapabilities [] requirements

namespace QueueEntry

variable {owner : ProcessIdentity} (entry : QueueEntry)

def validate : Except WorkerError Unit := do
  validateHexComponent entry.projectId "queue project ID"
  validateHexComponent entry.worktreeId "queue worktree ID"
  entry.commandSummary.validate
  validateRequirements entry.requirements
  validateWorkerPreference entry.preference
  entry.enqueueOwner.validate
  entry.state.validate entry.enqueuedAtMillis
  ensure (entry.enqueuedAtMillis ≠ 0) (.protocol "queue enqueue timestamp must be positive")
  checkSome entry.run QueueRunReference.validate
  checkSome entry.cancelRequestedAtMillis fun cancelledAt =>
    ensure (entry.enqueuedAtMillis ≤ cancelledAt)
      (.protocol "queue cancellation timestamp predates enqueue timestamp")
  checkSome entry.slotReservation fun reserved => do
    let _ ← RunnerSlotReservation.new reserved.reserver reserved.token
    return
  checkSome entry.preacceptanceAbandonmentProof fun proof => proof.validateAgainst entry
  checkSome entry.replacementFailure ReplacementFailureBudget.validate
  ensure (entry.kind = .batch → entry.ownerOpt = some entry.enqueueOwner)
    (.protocol "batch queue ownership is not replaceable")

/-- What a stored row satisfies. The first group never changes once the row is
queued; the second is what the operations below have to re-establish. -/
structure Valid (entry : QueueEntry) : Prop where
  project : isLowerHex entry.projectId 64 = true
  worktree : isLowerHex entry.worktreeId 64 = true
  command : entry.commandSummary.validate = .ok ()
  requirements : validateRequirements entry.requirements = .ok ()
  preference : validateWorkerPreference entry.preference = .ok ()
  enqueueOwner : entry.enqueueOwner.Valid
  enqueued : entry.enqueuedAtMillis ≠ 0
  run : ∀ run, entry.run = some run → run.validate = .ok ()
  state : entry.state.validate entry.enqueuedAtMillis = .ok ()
  cancel : ∀ t, entry.cancelRequestedAtMillis = some t → entry.enqueuedAtMillis ≤ t
  reservation : ∀ r, entry.slotReservation = some r → r.reserver.Valid ∧ r.token ≠ 0
  proof : ∀ p, entry.preacceptanceAbandonmentProof = some p → p.validateAgainst entry = .ok ()
  budget : ∀ b, entry.replacementFailure = some b → b.validate = .ok ()
  batch : entry.kind = .batch → entry.ownerOpt = some entry.enqueueOwner

/-- **The row check accepts exactly the valid rows.** -/
theorem validate_iff {entry : QueueEntry} : entry.validate = .ok () ↔ entry.Valid := by
  unfold validate validateHexComponent
  simp only [then_eq_ok, ensure_eq_ok, checkSome_eq_ok, ProcessIdentity.validate_eq_ok,
    RunnerSlotReservation.check_eq_ok]
  refine ⟨?_, fun h => ?_⟩
  · rintro ⟨h1, h2, h3, h4, h5, h6, h7, h8, h9, h10, h11, h12, h13, h14⟩
    exact ⟨h1, h2, h3, h4, h5, h6, h8, h9, h7, h10, h11, h12, h13, h14⟩
  · exact ⟨h.project, h.worktree, h.command, h.requirements, h.preference, h.enqueueOwner,
      h.state, h.enqueued, h.run, h.cancel, h.reservation, h.proof, h.budget, h.batch⟩

instance (entry : QueueEntry) : Decidable entry.Valid :=
  decidable_of_iff _ validate_iff

/-! ## Operations on one row -/

def checked : Except WorkerError QueueEntry := do
  entry.validate
  return entry

theorem checked_eq_ok {entry entry' : QueueEntry} :
    entry.checked = .ok entry' ↔ entry' = entry ∧ entry'.Valid := by
  unfold checked
  rw [then_eq_ok, validate_iff, pure_eq_ok, and_comm, eq_comm]
  exact and_congr_right fun h => by rw [h]

def new (jobId : JobId) (clientId : ClientId) (projectId worktreeId : String)
    (commandSummary : CommandSummary) (requirements : List String) (preference : WorkerPreference)
    (kind : QueueEntryKind) (run : Option QueueRunReference) (owner : ProcessIdentity)
    (enqueuedAtMillis : Nat) : Except WorkerError QueueEntry :=
  checked
    { queueId := 0, jobId, clientId, projectId, worktreeId, commandSummary, requirements,
      preference, kind, run, enqueueOwner := owner, state := .waiting owner,
      preacceptanceAbandonmentProof := none, cancelRequestedAtMillis := none, enqueuedAtMillis,
      slotReservation := none, replacementFailure := none }

def coalesceEnqueuedAt (floor : Nat) : QueueEntry :=
  if entry.enqueuedAtMillis < floor then { entry with enqueuedAtMillis := floor } else entry

def setSlotReservation (reservation : Option RunnerSlotReservation) :
    Except WorkerError QueueEntry := do
  checkSome reservation fun reservation => do
    let _ ← RunnerSlotReservation.new reservation.reserver reservation.token
    return
  checked { entry with slotReservation := reservation }

def adopt (owner : ProcessIdentity) : Except WorkerError QueueEntry := do
  ensure (entry.kind = .taskTurn) (.protocol "only a task turn can be adopted")
  match entry.state with
  | .waiting _ => checked { entry with state := .waiting owner }
  | .dispatching _ selectedWorker claimedAtMillis =>
    checked { entry with state := .dispatching owner selectedWorker claimedAtMillis }
  | .parked => .error (.protocol "a parked task turn must be unparked first")

def park : Except WorkerError QueueEntry := do
  ensure (entry.kind = .taskTurn) (.protocol "only a task turn can be parked")
  ensure (entry.preacceptanceAbandonmentProof = none)
    (.protocol "an abandoned queue row cannot be parked")
  ensure (entry.state ≠ .parked) (.protocol "only a waiting or dispatching task turn can be parked")
  checked { entry with state := .parked, slotReservation := none }

def unpark (owner : ProcessIdentity) : Except WorkerError QueueEntry := do
  owner.validate
  ensure (entry.kind = .taskTurn ∧ entry.state = .parked)
    (.protocol "only a parked task turn can be unparked")
  checked { entry with state := .waiting owner }

def dispatch (dispatchOwner : ProcessIdentity) (selectedWorker : String) (claimedAtMillis : Nat) :
    Except WorkerError QueueEntry :=
  checked { entry with state := .dispatching dispatchOwner selectedWorker claimedAtMillis }

def revert (dispatchOwner : ProcessIdentity) : Except WorkerError QueueEntry := do
  ensure (entry.preacceptanceAbandonmentProof = none)
    (.protocol "a proven abandoned queue row cannot be reverted")
  match entry.state with
  | .dispatching current _ _ =>
    if current = dispatchOwner then checked { entry with state := .waiting dispatchOwner }
    else .error (.protocol "queue dispatch owner does not match")
  | .parked => .error (.protocol "a parked queue row is not dispatching")
  | .waiting _ => .error (.protocol "queue dispatch owner does not match")

def requestCancel (requestedAtMillis : Nat) : Except WorkerError QueueEntry := do
  ensure (entry.enqueuedAtMillis ≤ requestedAtMillis)
    (.protocol "queue cancellation timestamp predates enqueue timestamp")
  checkSome entry.cancelRequestedAtMillis fun existing =>
    ensure (existing ≤ requestedAtMillis) (.protocol "queue cancellation timestamp moved backwards")
  checked { entry with cancelRequestedAtMillis := some requestedAtMillis }

def setReplacementFailure (budget : Option ReplacementFailureBudget) :
    Except WorkerError QueueEntry := do
  checkSome budget ReplacementFailureBudget.validate
  checked { entry with replacementFailure := budget }

def eligibleFor (worker : String) (capabilities : Option (List String))
    (agentVersions : List (String × String)) : Bool :=
  (match entry.preference with
    | .automatic => true
    | .pinned pinned => pinned == worker) &&
  (entry.requirements.isEmpty || capabilities.any fun capabilities =>
    entry.requirements.all (requirementSatisfied capabilities agentVersions))

/-! ## What the operations do -/

section
variable {entry entry' : QueueEntry} {t : Nat}

theorem adopt_ok (h : entry.adopt owner = .ok entry') : entry'.Valid ∧
      ((∃ o, entry.state = .waiting o ∧ entry' = { entry with state := .waiting owner }) ∨
       ∃ o w t, entry.state = .dispatching o w t ∧
        entry' = { entry with state := .dispatching owner w t }) := by
  unfold adopt at h
  obtain ⟨-, h⟩ := of_then h
  split at h
  · rename_i o hs
    obtain ⟨rfl, hv⟩ := checked_eq_ok.mp h
    exact ⟨hv, .inl ⟨o, hs, rfl⟩⟩
  · rename_i o w t hs
    obtain ⟨rfl, hv⟩ := checked_eq_ok.mp h
    exact ⟨hv, .inr ⟨o, w, t, hs, rfl⟩⟩
  · cases h

theorem adopt_owner (h : entry.adopt owner = .ok entry') :
    entry'.ownerOpt = some owner ∧ entry'.slotReservation = entry.slotReservation := by
  obtain ⟨-, ⟨o, -, rfl⟩ | ⟨o, w, t, -, rfl⟩⟩ := adopt_ok h
  · exact ⟨rfl, rfl⟩
  · exact ⟨rfl, rfl⟩

theorem park_eq_ok : entry.park = .ok entry' ↔
    entry.kind = .taskTurn ∧ entry.preacceptanceAbandonmentProof = none ∧ entry.state ≠ .parked ∧
      entry' = { entry with state := .parked, slotReservation := none } ∧ entry'.Valid := by
  unfold park
  simp only [then_eq_ok, ensure_eq_ok, checked_eq_ok]

theorem unpark_eq_ok : entry.unpark owner = .ok entry' ↔ owner.Valid ∧ (entry.kind = .taskTurn ∧
      entry.state = .parked) ∧ entry' = { entry with state := .waiting owner } ∧
      entry'.Valid := by
  unfold unpark
  simp only [then_eq_ok, ensure_eq_ok, checked_eq_ok, ProcessIdentity.validate_eq_ok]

theorem dispatch_eq_ok {worker : String} : entry.dispatch owner worker t = .ok entry' ↔
      entry' = { entry with state := .dispatching owner worker t } ∧ entry'.Valid :=
  checked_eq_ok

theorem revert_ok (h : entry.revert owner = .ok entry') :
    entry' = { entry with state := .waiting owner } ∧ entry'.Valid := by
  unfold revert at h
  obtain ⟨-, h⟩ := of_then h
  split at h
  · obtain ⟨rfl, hv⟩ := checked_eq_ok.mp (of_if h).2
    exact ⟨rfl, hv⟩
  · cases h
  · cases h

theorem requestCancel_eq_ok : entry.requestCancel t = .ok entry' ↔ entry.enqueuedAtMillis ≤ t ∧
      (∀ s, entry.cancelRequestedAtMillis = some s → s ≤ t) ∧
      entry' = { entry with cancelRequestedAtMillis := some t } ∧ entry'.Valid := by
  unfold requestCancel
  simp only [then_eq_ok, ensure_eq_ok, checkSome_eq_ok, checked_eq_ok]

theorem setSlotReservation_ok
    {reservation : Option RunnerSlotReservation}
    (h : entry.setSlotReservation reservation = .ok entry') :
    entry' = { entry with slotReservation := reservation } ∧ entry'.Valid := by
  unfold setSlotReservation at h
  exact checked_eq_ok.mp (of_then h).2

theorem setReplacementFailure_ok
    {budget : Option ReplacementFailureBudget}
    (h : entry.setReplacementFailure budget = .ok entry') :
    entry' = { entry with replacementFailure := budget } ∧ entry'.Valid := by
  unfold setReplacementFailure at h
  exact checked_eq_ok.mp (of_then h).2

/-! ## When the operations go through -/

theorem Valid.no_proof (h : entry.Valid)
    (hs : entry.state.isDispatching = false) : entry.preacceptanceAbandonmentProof = none := by
  cases hp : entry.preacceptanceAbandonmentProof with
  | none => rfl
  | some proof =>
    have hv := h.proof proof hp
    unfold QueueAbandonmentProof.validateAgainst at hv
    cases he : entry.state with
    | waiting owner => simp [he] at hv
    | dispatching owner worker t => simp [QueueState.isDispatching, he] at hs
    | parked => simp [he] at hv

theorem Valid.withState (h : entry.Valid) (hk : entry.kind = .taskTurn)
    (hp : entry.preacceptanceAbandonmentProof = none) (state : QueueState)
    (hs : state.validate entry.enqueuedAtMillis = .ok ()) :
    QueueEntry.Valid { entry with state := state } :=
  { h with
    state := hs
    proof := fun p h => by simp [hp] at h
    batch := fun h => by simp [hk] at h }

theorem dispatching_validate {worker t enqueued} :
    (QueueState.dispatching owner worker t).validate enqueued = .ok () ↔
      owner.Valid ∧ validateWorkerName worker = .ok () ∧ t ≠ 0 ∧ enqueued ≤ t := by
  simp [QueueState.validate]

theorem dispatch_iff (hv : entry.Valid) (hwa : entry.state.isWaiting = true) {worker t}
    (ho : owner.Valid) (hb : entry.kind = .batch → owner = entry.enqueueOwner)
    (hw : validateWorkerName worker = .ok ()) (ht : t ≠ 0) :
    (∃ entry', entry.dispatch owner worker t = .ok entry') ↔ entry.enqueuedAtMillis ≤ t := by
  have hpr : entry.preacceptanceAbandonmentProof = none := hv.no_proof (by
    cases hs : entry.state with
    | waiting owner => rfl
    | dispatching owner worker t => rw [hs] at hwa; cases hwa
    | parked => rfl)
  refine ⟨fun ⟨entry', h⟩ => ?_, fun hle => ?_⟩
  · obtain ⟨rfl, hv'⟩ := dispatch_eq_ok.mp h
    exact (dispatching_validate.mp hv'.state).2.2.2
  · have hva : QueueEntry.Valid { entry with state := .dispatching owner worker t } :=
      { hv with
        state := dispatching_validate.mpr ⟨ho, hw, ht, hle⟩
        proof := fun p hp => by simp [hpr] at hp
        batch := fun hk => congrArg some (hb hk) }
    exact ⟨_, dispatch_eq_ok.mpr ⟨rfl, hva⟩⟩

end

/-! ## What stays -/

/-- The row without what its operations change. -/
def identity : QueueEntry :=
  { entry with
    state := .parked, preacceptanceAbandonmentProof := none, cancelRequestedAtMillis := none
    slotReservation := none, replacementFailure := none }

def SameRow (row row' : QueueEntry) : Prop := row'.identity = row.identity

namespace SameRow
variable {row row' : QueueEntry}

theorem refl (row : QueueEntry) : SameRow row row := rfl

variable (h : SameRow row row')
include h

theorem queueId : row'.queueId = row.queueId := (congrArg QueueEntry.queueId h :)

theorem jobId : row'.jobId = row.jobId := (congrArg QueueEntry.jobId h :)

theorem clientId : row'.clientId = row.clientId := (congrArg QueueEntry.clientId h :)

theorem kind : row'.kind = row.kind := (congrArg QueueEntry.kind h :)

theorem run : row'.run = row.run := (congrArg QueueEntry.run h :)

theorem enqueued : row'.enqueuedAtMillis = row.enqueuedAtMillis :=
  (congrArg QueueEntry.enqueuedAtMillis h :)

end SameRow

/-- A new version of a row that is no closer to running than the old one. -/
structure Revises (row row' : QueueEntry) : Prop where
  same : row.SameRow row'
  valid : row.Valid → row'.Valid
  settled : row'.state.isDispatching = true → row.state.isDispatching = true

namespace Revises
variable {row row' row'' : QueueEntry}

theorem refl (row : QueueEntry) : Revises row row := ⟨.refl row, id, id⟩

theorem trans (h : Revises row row') (h' : Revises row' row'') : Revises row row'' :=
  ⟨Eq.trans h'.same h.same, fun hv => h'.valid (h.valid hv), fun hs => h.settled (h'.settled hs)⟩

theorem adopt (h : row.adopt owner = .ok row') : Revises row row' := by
  obtain ⟨hv, ⟨o, hs, rfl⟩ | ⟨o, w, t, hs, rfl⟩⟩ := adopt_ok h
  · exact ⟨rfl, fun _ => hv, fun hd => by cases hd⟩
  · exact ⟨rfl, fun _ => hv, fun _ => by rw [hs]; rfl⟩

theorem park (h : row.park = .ok row') : Revises row row' := by
  obtain ⟨-, -, -, rfl, hv⟩ := park_eq_ok.mp h
  exact ⟨rfl, fun _ => hv, fun hd => by cases hd⟩

theorem unpark (h : row.unpark owner = .ok row') : Revises row row' := by
  obtain ⟨-, -, rfl, hv⟩ := unpark_eq_ok.mp h
  exact ⟨rfl, fun _ => hv, fun hd => by cases hd⟩

theorem revert (h : row.revert owner = .ok row') : Revises row row' := by
  obtain ⟨rfl, hv⟩ := revert_ok h
  exact ⟨rfl, fun _ => hv, fun hd => by cases hd⟩

theorem requestCancel {t : Nat} (h : row.requestCancel t = .ok row') : Revises row row' := by
  obtain ⟨-, -, rfl, hv⟩ := requestCancel_eq_ok.mp h
  exact ⟨rfl, fun _ => hv, id⟩

theorem setSlotReservation {reservation : Option RunnerSlotReservation}
    (h : row.setSlotReservation reservation = .ok row') : Revises row row' := by
  obtain ⟨rfl, hv⟩ := setSlotReservation_ok h
  exact ⟨rfl, fun _ => hv, id⟩

theorem setReplacementFailure {budget : Option ReplacementFailureBudget}
    (h : row.setReplacementFailure budget = .ok row') : Revises row row' := by
  obtain ⟨rfl, hv⟩ := setReplacementFailure_ok h
  exact ⟨rfl, fun _ => hv, id⟩

end Revises

/-- Only the state and the permit of the row differ. -/
def Moved (row row' : QueueEntry) : Prop :=
  ∃ state permit, row' = { row with state := state, slotReservation := permit }

namespace Moved
variable {row row' row'' : QueueEntry}

theorem refl (row : QueueEntry) : Moved row row := ⟨_, _, rfl⟩

theorem trans (h : Moved row row') (h' : Moved row' row'') : Moved row row'' := by
  obtain ⟨_, _, rfl⟩ := h
  obtain ⟨state, permit, rfl⟩ := h'
  exact ⟨state, permit, rfl⟩

theorem same (h : Moved row row') : SameRow row row' := by
  obtain ⟨_, _, rfl⟩ := h
  rfl

theorem adopt (h : row.adopt owner = .ok row') : Moved row row' := by
  obtain ⟨-, ⟨o, -, rfl⟩ | ⟨o, w, t, -, rfl⟩⟩ := adopt_ok h
  · exact ⟨_, _, rfl⟩
  · exact ⟨_, _, rfl⟩

theorem park (h : row.park = .ok row') : Moved row row' := by
  obtain ⟨-, -, -, rfl, -⟩ := park_eq_ok.mp h
  exact ⟨_, _, rfl⟩

theorem unpark (h : row.unpark owner = .ok row') : Moved row row' := by
  obtain ⟨-, -, rfl, -⟩ := unpark_eq_ok.mp h
  exact ⟨_, _, rfl⟩

theorem setSlotReservation {reservation : Option RunnerSlotReservation}
    (h : row.setSlotReservation reservation = .ok row') : Moved row row' := by
  obtain ⟨rfl, -⟩ := setSlotReservation_ok h
  exact ⟨_, _, rfl⟩

end Moved

/-! ## A concrete row -/

/-- A well-formed task turn row, used wherever a concrete queue is needed. -/
def sample (queueId : Nat) (jobId : JobId) (owner : ProcessIdentity) (state : QueueState)
    (enqueuedAtMillis : Nat) (run : Option QueueRunReference) : QueueEntry :=
  { queueId, jobId, clientId := ⟨7⟩
    projectId := "00000000000000000000000000000000000000000000000000000000000000aa"
    worktreeId := "00000000000000000000000000000000000000000000000000000000000000bb"
    commandSummary := ⟨.shell, none⟩, requirements := [], preference := .automatic
    kind := .taskTurn, run, enqueueOwner := owner, state, preacceptanceAbandonmentProof := none
    cancelRequestedAtMillis := none, enqueuedAtMillis, slotReservation := none
    replacementFailure := none }

end QueueEntry

end MacWorker.Queue
