import MacWorker.Queue.Reassign
import MacWorker.Queue.SpawnPermit

/-! # Every operation on the queue

The operations that read the queue file, change it and publish it, beside the claims and
the spawn permits. `QueueOp` is their common type and `apply` runs one of them. `Edit`
says what they have in common: rows keep their identity and their order, queue ids are
never reused, a new row waits at the end, and only the operations that dispatch can make
a row `Dispatching`. -/
namespace MacWorker.Queue
open Fallible MacWorker.Scheduler List

/-! ## Adding rows -/

variable (world : World) (queue : QueueSnapshot) (jobId : JobId) (turnId : TurnId)
  (owner : ProcessIdentity)

/-- Check a row that is about to be queued. -/
def admitNew (entry : QueueEntry) : Except WorkerError Unit := do
  entry.validate
  ensure (entry.clientId = world.clientId)
    (.queue "QUEUE_CLIENT_MISMATCH" "queue row belongs to another client identity")
  ensure (entry.queueId = 0) (.queue "QUEUE_ID_ASSIGNED" "new queue row already has a sequence ID")

/-- Append a row under the next queue id. Its enqueue time is lifted to that of the
row before it, so that times never decrease along the queue. -/
def append (entry : QueueEntry) : Except WorkerError (QueueSnapshot × QueueEntry) := do
  let entry := match queue.entries.getLast? with
    | some previous => entry.coalesceEnqueuedAt previous.enqueuedAtMillis
    | none => entry
  ensure (queue.nextId + 1 < 2 ^ 64) (.protocol "queue sequence is exhausted")
  let entry := { entry with queueId := queue.nextId }
  return (⟨queue.nextId + 1, queue.entries ++ [entry]⟩, entry)

def enqueue (entry : QueueEntry) : Except WorkerError (QueueSnapshot × QueueEntry) := do
  admitNew world entry
  updateQueue world.clientId queue fun queue => do
    ensure (∀ existing ∈ queue.entries, existing.jobId ≠ entry.jobId)
      (.queue "QUEUE_JOB_CONFLICT" "job ID is already present in the queue")
    append queue entry

def enqueueIfAbsent (entry : QueueEntry) : Except WorkerError (QueueSnapshot × QueueEntry) := do
  admitNew world entry
  updateQueue world.clientId queue fun queue =>
    match queue.row entry.jobId with
    | some existing => .ok (queue, existing)
    | none => append queue entry

/-! ## Changing one row -/

def changeRow (change : QueueEntry → Except WorkerError QueueEntry) :
    Except WorkerError (QueueSnapshot × QueueEntry) :=
  updateRow world.clientId queue jobId fun entry => do
    let entry ← change entry
    return (entry, entry)

def adoptRow (newOwner : ProcessIdentity) : Except WorkerError (QueueSnapshot × QueueEntry) := do
  newOwner.validate
  changeRow world queue jobId fun entry =>
    (entry.adopt newOwner).mapError fun _ =>
      .queue "QUEUE_ADOPTION_CONFLICT" "queue row cannot be adopted in its current state"

def revertDispatch (dispatchOwner : ProcessIdentity) :
    Except WorkerError (QueueSnapshot × QueueEntry) := do
  dispatchOwner.validate
  changeRow world queue jobId fun entry =>
    (entry.revert dispatchOwner).mapError fun _ =>
      .queue "QUEUE_OWNER_MISMATCH" "queue dispatch owner does not match"

def parkRow : Except WorkerError (QueueSnapshot × QueueEntry) :=
  changeRow world queue jobId (·.park)

def unparkRow : Except WorkerError (QueueSnapshot × Option QueueEntry) := do
  owner.validate
  updateRow world.clientId queue jobId fun entry =>
    if entry.state ≠ .parked then .ok (entry, none)
    else do
      let entry ← entry.unpark owner
      return (entry, some entry)

def minByKey {α : Type} (key : α → Nat) : List α → Option α
  | [] => none
  | x :: rest =>
    match minByKey key rest with
    | none => some x
    | some y => if key x ≤ key y then some x else some y

/-- The parked rows whose restart budget is not used up. -/
def startableParked : List QueueEntry :=
  queue.entries.filter fun entry =>
    entry.state == .parked && !entry.replacementFailure.any (·.shouldPark)

def unparkOldest : Except WorkerError (QueueSnapshot × Option QueueEntry) := do
  owner.validate
  match minByKey (·.queueId) (startableParked queue) with
  | none => updateQueue world.clientId queue fun queue => .ok (queue, none)
  | some oldest =>
    updateRow world.clientId queue oldest.jobId fun entry => do
      let entry ← entry.unpark owner
      return (entry, some entry)

/-- The budget after a failure: the first of a row, or one more. -/
def nextBudget (entry : QueueEntry) (publicCode : String) (atMillis : Nat) :
    Except WorkerError ReplacementFailureBudget :=
  match entry.replacementFailure with
  | some existing => existing.applying publicCode atMillis
  | none => ReplacementFailureBudget.new atMillis publicCode 1

def recordReplacementFailure (publicCode : String) (atMillis : Nat) :
    Except WorkerError (QueueSnapshot × QueueEntry) :=
  changeRow world queue jobId fun entry => do
    let budget ← nextBudget entry publicCode atMillis
    entry.setReplacementFailure (some budget)

def resetReplacementFailure (entry : QueueEntry) : Except WorkerError QueueEntry :=
  if entry.kind ≠ .taskTurn ∨ entry.replacementFailure = none then .ok entry
  else do
    let reset ← entry.setReplacementFailure none
    if entry.state = .parked then reset.unpark owner else .ok reset

/-- Clear every restart budget and unpark the rows that have one. -/
def resetReplacementFailures : Except WorkerError (QueueSnapshot × Nat) := do
  owner.validate
  updateQueue world.clientId queue fun queue => do
    let entries ← queue.entries.mapM (resetReplacementFailure owner)
    return ({ queue with entries }, queue.entries.countP fun entry =>
      entry.kind == .taskTurn && entry.replacementFailure.isSome)

def takeBack (entry : QueueEntry) : Except WorkerError QueueEntry :=
  if entry.state = .parked then entry.unpark owner else entry.adopt owner

/-- Retain an unstarted attached turn, unless the row is not the expected one or a
process other than `owner` may still be working for it. -/
def retainAttachedRowIfCurrent (expected : QueueEntry) (owner : ProcessIdentity) :
    Except WorkerError (QueueSnapshot × Bool) := do
  owner.validate
  updateRow world.clientId queue expected.jobId fun entry =>
    if entry ≠ expected ∨ entry.state.isDispatching = true ∨
        entry.slotReservation.any (fun reservation =>
          world.observationCountsAsSlot reservation.reserver ||
            reservation.child.any world.observationCountsAsSlot) = true ∨
        entry.ownerOpt.any (fun previous =>
          previous != owner && world.observationCountsAsSlot previous) = true then
      .ok (entry, false)
    else do
      let entry ← entry.setSlotReservation none
      let entry ← takeBack owner entry
      return (entry, true)

/-- Restore the dispatch of a turn that its journal proves accepted. -/
def resumeAcceptedTurn (worker : String) (owner : ProcessIdentity) (nowMillis : Nat) :
    Except WorkerError (QueueSnapshot × QueueEntry) := do
  validateWorkerName worker
  changeRow world queue jobId fun entry => do
    ensure (entry.kind = .taskTurn ∧ entry.ownerOpt = some owner)
      (.queue "QUEUE_OWNER_MISMATCH" "accepted turn ownership changed")
    entry.dispatch owner worker nowMillis

/-! ## Rows that may be absent -/

def onRow {β : Type} (absent : β)
    (update : List QueueEntry → QueueEntry → List QueueEntry →
      Except WorkerError (List QueueEntry × β)) : Except WorkerError (QueueSnapshot × β) :=
  updateQueue world.clientId queue fun queue =>
    match splitFirst (·.jobId == jobId) queue.entries with
    | none => .ok (queue, absent)
    | some (older, entry, newer) => do
      let (entries, result) ← update older entry newer
      return ({ queue with entries }, result)

def tryParkAttachedWaiter : Except WorkerError (QueueSnapshot × Unit) :=
  onRow world queue turnId () fun older entry newer =>
    if entry.kind = .taskTurn ∧ entry.state = .waiting owner ∧ entry.slotReservation = none then do
      return (older ++ (← entry.park) :: newer, ())
    else .ok (older ++ entry :: newer, ())

def retainTaskTurnCancel (requestedAtMillis : Nat) :
    Except WorkerError (QueueSnapshot × Option QueueEntry) :=
  onRow world queue turnId none fun older entry newer => do
    ensure (entry.kind = .taskTurn)
      (.queue "QUEUE_KIND_CONFLICT" "cancellation requires a task turn")
    let entry ← entry.requestCancel requestedAtMillis
    return (older ++ entry :: newer, some entry)

def cancelUnstartedHandoff (now : Nat) : Except WorkerError (QueueSnapshot × Option QueueEntry) :=
  onRow world queue turnId none fun older entry newer =>
    if entry.kind ≠ .taskTurn ∨ entry.state ≠ .waiting owner ∨
        entry.slotReservation.any (·.child.isSome) = true then
      .ok (older ++ entry :: newer, none)
    else do
      let entry ← entry.requestCancel now
      return (older ++ entry :: newer, some entry)

def removeRow (check : QueueEntry → Except WorkerError Unit) :
    Except WorkerError (QueueSnapshot × Option QueueEntry) :=
  onRow world queue jobId none fun older entry newer => do
    check entry
    return (older ++ newer, some entry)

def removeQueued : Except WorkerError (QueueSnapshot × Option QueueEntry) :=
  removeRow world queue jobId fun entry =>
    ensure (entry.state.isWaiting = true)
      (.queue "QUEUE_STATE_CONFLICT" "only a waiting queue row can be removed")

def removeTaskTurnForSubmissionRollback : Except WorkerError (QueueSnapshot × Option QueueEntry) :=
  removeRow world queue turnId fun entry =>
    ensure (entry.kind = .taskTurn) (.queue "QUEUE_KIND_CONFLICT" "queue row is not a task turn")

def removeTaskTurnAfterTerminal : Except WorkerError (QueueSnapshot × Option QueueEntry) := do
  owner.validate
  removeRow world queue turnId fun entry => do
    ensure (entry.kind = .taskTurn) (.queue "QUEUE_KIND_CONFLICT" "queue row is not a task turn")
    match entry.state with
    | .waiting current =>
      ensure (current = owner) (.queue "QUEUE_OWNER_MISMATCH" "task turn owner does not match")
    | .dispatching current _ _ =>
      ensure (current = owner)
        (.queue "QUEUE_OWNER_MISMATCH" "task turn dispatch owner does not match")
    | .parked => .ok ()

/-! ## Putting a row back -/

def insertById (entry : QueueEntry) (entries : List QueueEntry) : List QueueEntry :=
  entries.takeWhile (·.queueId ≤ entry.queueId) ++
    entry :: entries.dropWhile (·.queueId ≤ entry.queueId)

def restoreTaskTurnForSubmissionRollback (entry : QueueEntry) :
    Except WorkerError (QueueSnapshot × Unit) := do
  ensure (entry.clientId = world.clientId)
    (.queue "QUEUE_CLIENT_MISMATCH" "queue row belongs to another client identity")
  updateQueue world.clientId queue fun queue =>
    if ∃ existing ∈ queue.entries, existing.jobId = entry.jobId then .ok (queue, ())
    else do
      ensure (entry.queueId < queue.nextId)
        (.queue "QUEUE_ID_CONFLICT" "restored queue row has an invalid sequence ID")
      return ({ queue with entries := insertById entry queue.entries }, ())

/-! ## Undoing a reassignment -/

/-- Give the runner back to the donor whose turn it left: the recipient's row is
parked again and the donor's waits under its old owner and permit. -/
def releaseWaitingRunnerReassignment (sourceTask : TaskId) (source : QueueEntry)
    (recipientTask : TaskId) (claim : QueueEntry) (owner : ProcessIdentity) :
    Except WorkerError QueueSnapshot := do
  queue.validate
  requireQueueClient queue world.clientId
  match splitFirst (·.jobId == source.jobId) queue.entries with
  | none => .error (.queue "TASK_QUEUE_MISSING" "donor row disappeared during reassignment")
  | some (beforeSource, donor, _) =>
    match splitFirst (·.jobId == claim.jobId) queue.entries with
    | none => .error (.queue "TASK_QUEUE_MISSING" "recipient row disappeared during reassignment")
    | some (beforeRecipient, recipient, _) =>
      ensure (beforeSource.length ≠ beforeRecipient.length ∧ donor.state = .parked ∧
          donor.slotReservation = none ∧ recipient.state = claim.state ∧
          recipient.ownerOpt = some owner ∧ source.ownerOpt = some owner)
        (.queue "QUEUE_OWNER_MISMATCH" "runner reassignment changed before release")
      let sourceRecord ← world.loadTask sourceTask
      let recipientRecord ← world.loadTask recipientTask
      ensure (sourceRecord.runner = none ∧ recipientRecord.runner = some owner)
        (.queue "QUEUE_OWNER_MISMATCH" "task runner changed before reassignment release")
      let entries ← updateAt (·.park) beforeRecipient.length queue.entries
      let entries ← updateAt (·.unpark owner) beforeSource.length entries
      let entries ← updateAt (·.setSlotReservation source.slotReservation) beforeSource.length
        entries
      let next := { queue with entries }
      next.validate
      return next

/-! ## All of them -/

/-- What a new row is made of. -/
structure Draft where
  jobId : JobId
  clientId : ClientId
  (projectId worktreeId : String)
  commandSummary : CommandSummary
  requirements : List String
  preference : WorkerPreference
  kind : QueueEntryKind
  run : Option QueueRunReference
  owner : ProcessIdentity
  enqueuedAtMillis : Nat

def Draft.entry (draft : Draft) : Except WorkerError QueueEntry :=
  QueueEntry.new draft.jobId draft.clientId draft.projectId draft.worktreeId draft.commandSummary
    draft.requirements draft.preference draft.kind draft.run draft.owner draft.enqueuedAtMillis

/-- The draft of a well-formed task turn, used wherever a concrete one is needed. -/
def Draft.sample (enqueuedAtMillis : Nat) (run : Option QueueRunReference) : Draft :=
  { QueueEntry.sample 0 jobId owner .parked enqueuedAtMillis run with owner }

/-- An operation with its arguments. Outside the store rows are only made by
`QueueEntry.new`, so a row to be queued is given by its draft. -/
inductive QueueOp where
  | enqueue (draft : Draft)
  | enqueueIfAbsent (draft : Draft)
  | claimNextMatching (owner : ProcessIdentity) (rankedWorkers : List String)
      (claimedAtMillis : Nat) (turnId : Option TurnId) (slotCeilings : Option (List (String × Nat)))
  | claimParkedFilteredForWaitingRunner (taskId : TaskId) (turnId : TurnId)
      (owner : ProcessIdentity) (observations : List CandidateObservation) (nowMillis : Nat)
      (eligible : Option (List TurnId))
  | releaseWaitingRunnerReassignment (sourceTask : TaskId) (source : QueueEntry)
      (recipientTask : TaskId) (claim : QueueEntry) (owner : ProcessIdentity)
  | revertDispatch (jobId : JobId) (dispatchOwner : ProcessIdentity)
  | adoptRow (jobId : JobId) (newOwner : ProcessIdentity)
  | retainAttachedRowIfCurrent (expected : QueueEntry) (owner : ProcessIdentity)
  | resumeAcceptedTurn (jobId : JobId) (worker : String) (owner : ProcessIdentity)
      (nowMillis : Nat)
  | parkRow (jobId : JobId)
  | tryParkAttachedWaiter (turnId : TurnId) (owner : ProcessIdentity)
  | unparkRow (jobId : JobId) (owner : ProcessIdentity)
  | unparkOldest (owner : ProcessIdentity)
  | recordReplacementFailure (jobId : JobId) (publicCode : String) (atMillis : Nat)
  | resetReplacementFailures (owner : ProcessIdentity)
  | retainTaskTurnCancel (turnId : TurnId) (requestedAtMillis : Nat)
  | cancelUnstartedHandoff (turnId : TurnId) (owner : ProcessIdentity) (now : Nat)
  | removeQueued (jobId : JobId)
  | removeTaskTurnForSubmissionRollback (turnId : TurnId)
  | removeTaskTurnAfterTerminal (turnId : TurnId) (owner : ProcessIdentity)
  | restoreTaskTurnForSubmissionRollback (entry : QueueEntry)
  | reserveRunnerSlot (jobId : JobId) (reserver : ProcessIdentity) (slotLimit : Nat)
      (excludeReserver : Bool) (token : Uuid)
  | releaseRunnerSlot (jobId : JobId) (token : Uuid) (reserver : ProcessIdentity)
  | bindRunnerSlotChild (jobId : JobId) (token : Uuid) (child : ProcessIdentity)
  | takeOverReservedSlot (jobId : JobId) (token : Uuid) (child : ProcessIdentity)
  | publishSpawnedChild (turnId : TurnId) (token : Uuid) (child : ProcessIdentity)
  | clearPermit (turnId : TurnId) (token : Uuid) (child : ProcessIdentity)

/-- The queue an operation publishes. Completing a start publishes twice, so its two
halves are separate operations. -/
def QueueOp.apply : QueueOp → Except WorkerError QueueSnapshot
  | .enqueue draft => do
    let entry ← draft.entry
    return (← Queue.enqueue world queue entry).1
  | .enqueueIfAbsent draft => do
    let entry ← draft.entry
    return (← Queue.enqueueIfAbsent world queue entry).1
  | .claimNextMatching owner rankedWorkers claimedAtMillis turnId slotCeilings =>
    Prod.fst <$> Queue.claimNextMatching world queue owner rankedWorkers claimedAtMillis turnId
      slotCeilings
  | .claimParkedFilteredForWaitingRunner taskId turnId owner observations nowMillis eligible =>
    Prod.fst <$> Queue.claimParkedFilteredForWaitingRunner world queue taskId turnId owner
      observations nowMillis eligible
  | .releaseWaitingRunnerReassignment sourceTask source recipientTask claim owner =>
    Queue.releaseWaitingRunnerReassignment world queue sourceTask source recipientTask claim owner
  | .revertDispatch jobId dispatchOwner =>
    Prod.fst <$> Queue.revertDispatch world queue jobId dispatchOwner
  | .adoptRow jobId newOwner => Prod.fst <$> Queue.adoptRow world queue jobId newOwner
  | .retainAttachedRowIfCurrent expected owner =>
    Prod.fst <$> Queue.retainAttachedRowIfCurrent world queue expected owner
  | .resumeAcceptedTurn jobId worker owner nowMillis =>
    Prod.fst <$> Queue.resumeAcceptedTurn world queue jobId worker owner nowMillis
  | .parkRow jobId => Prod.fst <$> Queue.parkRow world queue jobId
  | .tryParkAttachedWaiter turnId owner =>
    Prod.fst <$> Queue.tryParkAttachedWaiter world queue turnId owner
  | .unparkRow jobId owner => Prod.fst <$> Queue.unparkRow world queue jobId owner
  | .unparkOldest owner => Prod.fst <$> Queue.unparkOldest world queue owner
  | .recordReplacementFailure jobId publicCode atMillis =>
    Prod.fst <$> Queue.recordReplacementFailure world queue jobId publicCode atMillis
  | .resetReplacementFailures owner => Prod.fst <$> Queue.resetReplacementFailures world queue owner
  | .retainTaskTurnCancel turnId requestedAtMillis =>
    Prod.fst <$> Queue.retainTaskTurnCancel world queue turnId requestedAtMillis
  | .cancelUnstartedHandoff turnId owner now =>
    Prod.fst <$> Queue.cancelUnstartedHandoff world queue turnId owner now
  | .removeQueued jobId => Prod.fst <$> Queue.removeQueued world queue jobId
  | .removeTaskTurnForSubmissionRollback turnId =>
    Prod.fst <$> Queue.removeTaskTurnForSubmissionRollback world queue turnId
  | .removeTaskTurnAfterTerminal turnId owner =>
    Prod.fst <$> Queue.removeTaskTurnAfterTerminal world queue turnId owner
  | .restoreTaskTurnForSubmissionRollback entry =>
    Prod.fst <$> Queue.restoreTaskTurnForSubmissionRollback world queue entry
  | .reserveRunnerSlot jobId reserver slotLimit excludeReserver token =>
    Prod.fst <$> Queue.reserveRunnerSlot world queue jobId reserver slotLimit excludeReserver token
  | .releaseRunnerSlot jobId token reserver =>
    Prod.fst <$> Queue.releaseRunnerSlot world queue jobId token reserver
  | .bindRunnerSlotChild jobId token child =>
    Prod.fst <$> Queue.bindRunnerSlotChild world queue jobId token child
  | .takeOverReservedSlot jobId token child =>
    Prod.fst <$> Queue.takeOverReservedSlot world queue jobId token child
  | .publishSpawnedChild turnId token child =>
    Prod.fst <$> Queue.publishSpawnedChild world queue turnId token child
  | .clearPermit turnId token child =>
    Prod.fst <$> updateRow world.clientId queue turnId (clearPermitRow token child)

/-! ## What an operation can do -/

def QueueOp.draft : QueueOp → Option Draft
  | .enqueue draft => some draft
  | .enqueueIfAbsent draft => some draft
  | _ => none

/-- The operation publishes a row as it finds it, without asking for room in its run. -/
def QueueOp.bypassesAdmission : QueueOp → Bool
  | .resumeAcceptedTurn _ _ _ _ => true
  | .restoreTaskTurnForSubmissionRollback _ => true
  | _ => false

def QueueOp.removes : QueueOp → Option JobId
  | .removeQueued jobId => some jobId
  | .removeTaskTurnForSubmissionRollback turnId => some turnId
  | .removeTaskTurnAfterTerminal turnId _ => some turnId
  | _ => none

def QueueOp.restores : QueueOp → Option QueueEntry
  | .restoreTaskTurnForSubmissionRollback entry => some entry
  | _ => none

/-- The rows stand where they stood, each related to what it was. -/
structure Steady (R : QueueEntry → QueueEntry → Prop) (queue queue' : QueueSnapshot) : Prop where
  nextId : queue'.nextId = queue.nextId
  rows : List.Forall₂ R queue.entries queue'.entries

/-- Each row stands where it stood and is still the same row. -/
abbrev InPlace := Steady QueueEntry.SameRow

inductive Edit (world : World) (op : QueueOp) (queue queue' : QueueSnapshot) : Prop
  | revised (h : Steady QueueEntry.Revises queue queue')
  | removed {before after : List QueueEntry} {row : QueueEntry}
      (position : queue.entries = before ++ row :: after) (named : op.removes = some row.jobId)
      (published : queue' = { queue with entries := before ++ after })
  | appended {draft : Draft} {entry : QueueEntry}
      (offered : op.draft = some draft)
      (published : queue' = ⟨queue.nextId + 1, queue.entries ++ [entry]⟩)
      (id : entry.queueId = queue.nextId) (waiting : entry.state = .waiting draft.owner)
      (job : entry.jobId = draft.jobId) (run : entry.run = draft.run)
      (kind : entry.kind = draft.kind)
      (time : entry.enqueuedAtMillis = max draft.enqueuedAtMillis
        ((queue.entries.getLast?.map (·.enqueuedAtMillis)).getD 0))
  | started {row : QueueEntry}
      (mem : row ∈ queue.entries)
      (room : runHasCapacity world queue row = .ok true)
      (place : InPlace queue queue')
      (rows : ∀ row' ∈ queue'.entries, (∃ r ∈ queue.entries, r.Revises row') ∨ row.SameRow row')
  | resumed (bypasses : op.bypassesAdmission = true) (place : InPlace queue queue')
  | restored {entry : QueueEntry} (bypasses : op.bypassesAdmission = true)
      (named : op.restores = some entry)
      (published : queue' = { queue with entries := insertById entry queue.entries })

/-- An operation that succeeds takes a stored queue to a stored queue by such an edit. -/
structure Applied (world : World) (op : QueueOp) (queue queue' : QueueSnapshot) : Prop where
  stored : Stored world.clientId queue
  stored' : Stored world.clientId queue'
  edit : Edit world op queue queue'

/-! ## The shapes of an update -/

section
variable {R : QueueEntry → QueueEntry → Prop} {queue queue' : QueueSnapshot}

theorem Steady.refl (hr : ∀ row, R row row) (queue : QueueSnapshot) : Steady R queue queue :=
  ⟨rfl, forall₂_same.mpr fun row _ => hr row⟩

theorem Steady.trans {queue''} (h : Steady R queue queue') (h' : Steady R queue' queue'')
    (ht : ∀ a b c, R a b → R b c → R a c) :
    Steady R queue queue'' := by
  refine ⟨h'.nextId.trans h.nextId, ?_⟩
  have hr := h.rows
  have hr' := h'.rows
  generalize queue.entries = rows at hr
  generalize queue'.entries = rows' at hr hr'
  generalize queue''.entries = rows'' at hr'
  induction hr generalizing rows'' with
  | nil => exact hr'
  | cons hro _ ih =>
    cases hr' with
    | cons hro' hre => exact .cons (ht _ _ _ hro hro') (ih _ hre)

theorem Steady.replace (hr : ∀ row, R row row) {before after row row'}
    (he : queue.entries = before ++ row :: after) (h : R row row') :
    Steady R queue { queue with entries := before ++ row' :: after } := by
  have hre : ∀ rows, List.Forall₂ R rows rows := fun _ => forall₂_same.mpr fun x _ => hr x
  refine ⟨rfl, ?_⟩
  rw [he]
  exact rel_append (hre before) (.cons h (hre after))

theorem Steady.set (hr : ∀ row, R row row) {i row row'} (hi : queue.entries[i]? = some row)
    (h : R row row') :
    Steady R queue { queue with entries := queue.entries.set i row' } := by
  obtain ⟨hlt, rfl⟩ := List.getElem?_eq_some_iff.mp hi
  rw [set_eq_take_append_cons_drop, if_pos hlt]
  refine Steady.replace hr ?_ h
  rw [getElem_cons_drop, take_append_drop]

theorem Steady.imp {S : QueueEntry → QueueEntry → Prop} (h : Steady R queue queue')
    (hs : ∀ row row', R row row' → S row row') : Steady S queue queue' :=
  ⟨h.nextId, h.rows.imp hs⟩

theorem Steady.inPlace (h : Steady QueueEntry.Revises queue queue') : InPlace queue queue' :=
  h.imp fun _ _ => QueueEntry.Revises.same

theorem Steady.origin (h : Steady R queue queue') :
    ∀ row' ∈ queue'.entries, ∃ row ∈ queue.entries, R row row' := by
  intro row' hr'
  obtain ⟨i, hi, rfl⟩ := getElem_of_mem hr'
  have hi' : i < queue.entries.length := by
    rw [h.rows.length_eq]
    exact hi
  exact ⟨_, get_mem _ _, h.rows.get hi' hi⟩

theorem mem_of_mem_removed {before after : List QueueEntry} {row other : QueueEntry}
    (h : queue.entries = before ++ row :: after) (hin : other ∈ before ++ after) :
    other ∈ queue.entries := by
  rw [h]
  simp only [mem_append, mem_cons] at hin ⊢
  exact hin.imp_right .inr

theorem Steady.kept (h : Steady R queue queue') :
    ∀ row ∈ queue.entries, ∃ row' ∈ queue'.entries, R row row' :=
  Steady.origin (R := flip R) ⟨h.nextId.symm, h.rows.flip⟩

end

section
variable {β : Type} {world : World} {op : QueueOp} {queue queue' : QueueSnapshot} {jobId : JobId}

theorem Edit.refl (queue : QueueSnapshot) : Edit world op queue queue :=
  .revised (.refl .refl queue)

theorem Applied.updateQueue
    {update : QueueSnapshot → Except WorkerError (QueueSnapshot × β)} {b : β}
    (h : updateQueue world.clientId queue update = .ok (queue', b))
    (hed : update queue = .ok (queue', b) → Edit world op queue queue') :
    Applied world op queue queue' := by
  obtain ⟨hq, hu, hq'⟩ := updateQueue_eq_ok.mp h
  exact ⟨hq, hq', hed hu⟩

theorem updateRow_steady {change : QueueEntry → Except WorkerError (QueueEntry × β)} {b : β}
    {R : QueueEntry → QueueEntry → Prop} (hrefl : ∀ row, R row row)
    (hr : ∀ row row' b, change row = .ok (row', b) → R row row')
    (h : updateRow world.clientId queue jobId change = .ok (queue', b)) :
    Stored world.clientId queue ∧ Stored world.clientId queue' ∧ Steady R queue queue' := by
  obtain ⟨hq, hq', before, row, row', after, he, -, hc, rfl⟩ := updateRow_ok h
  exact ⟨hq, hq', .replace hrefl he (hr row row' b hc)⟩

theorem Applied.updateRow {change : QueueEntry → Except WorkerError (QueueEntry × β)} {b : β}
    (hr : ∀ row row' b, change row = .ok (row', b) → row.Revises row')
    (h : updateRow world.clientId queue jobId change = .ok (queue', b)) :
    Applied world op queue queue' := by
  obtain ⟨hq, hq', hs⟩ := updateRow_steady .refl hr h
  exact ⟨hq, hq', .revised hs⟩

theorem Applied.changeRow {change : QueueEntry → Except WorkerError QueueEntry}
    {entry : QueueEntry} (hr : ∀ row row', change row = .ok row' → row.Revises row')
    (h : changeRow world queue jobId change = .ok (queue', entry)) :
    Applied world op queue queue' := by
  refine Applied.updateRow (fun row row' b hc => ?_) h
  obtain ⟨_, hro, he⟩ := of_bind hc
  cases he
  exact hr row _ hro

theorem Applied.onRow {absent b : β} {update : List QueueEntry → QueueEntry → List QueueEntry →
      Except WorkerError (List QueueEntry × β)}
    (hr : ∀ older entry newer entries b, update older entry newer = .ok (entries, b) →
      ∃ entry', entries = older ++ entry' :: newer ∧ entry.Revises entry')
    (h : onRow world queue jobId absent update = .ok (queue', b)) :
    Applied world op queue queue' := by
  refine Applied.updateQueue h fun hu => ?_
  split at hu
  · cases hu
    exact .refl queue
  · rename_i older entry newer hs
    obtain ⟨⟨entries, c⟩, hup, hre⟩ := of_bind hu
    cases hre
    obtain ⟨entry', rfl, hro⟩ := hr older entry newer entries b hup
    exact .revised (.replace .refl (splitFirst_some hs).1 hro)

theorem Applied.removeRow {check : QueueEntry → Except WorkerError Unit}
    {found : Option QueueEntry} (hn : op.removes = some jobId)
    (h : removeRow world queue jobId check = .ok (queue', found)) :
    Applied world op queue queue' := by
  unfold Queue.removeRow Queue.onRow at h
  refine Applied.updateQueue h fun hu => ?_
  split at hu
  · cases hu
    exact .refl queue
  · rename_i older entry newer hs
    obtain ⟨he, hj⟩ := splitFirst_some hs
    obtain ⟨⟨entries, c⟩, hr, hre⟩ := of_bind hu
    cases (of_then hr).2
    cases hre
    have hj : entry.jobId = jobId := by simpa using hj
    exact .removed he (hj ▸ hn) rfl

end

/-! ## Each operation is such an edit -/

section
open QueueEntry
variable {world : World} {op : QueueOp} {queue queue' : QueueSnapshot} {owner : ProcessIdentity}
  {draft : Draft} {turnId : TurnId} {t : Nat} {result : Option QueueEntry}

theorem takeBack_revises {row row'} (h : takeBack owner row = .ok row') : Revises row row' := by
  unfold takeBack at h
  split at h
  · exact .unpark h
  · exact .adopt h

theorem resetReplacementFailure_revises {row row'}
    (h : resetReplacementFailure owner row = .ok row') : Revises row row' := by
  unfold resetReplacementFailure at h
  split at h
  · cases h; exact .refl row
  · obtain ⟨reset, hr, h⟩ := of_bind h
    split at h
    · exact (Revises.setReplacementFailure hr).trans (.unpark h)
    · cases h; exact .setReplacementFailure hr

theorem append_ok {entry entry'} (h : append queue entry = .ok (queue', entry')) :
    queue' = ⟨queue.nextId + 1, queue.entries ++ [entry']⟩ ∧ entry' = { entry with
        queueId := queue.nextId
        enqueuedAtMillis := max entry.enqueuedAtMillis
          ((queue.entries.getLast?.map (·.enqueuedAtMillis)).getD 0) } := by
  unfold append at h
  rw [then_eq_ok, pure_eq_ok, Prod.mk.injEq] at h
  obtain ⟨-, rfl, rfl⟩ := h
  refine ⟨rfl, ?_⟩
  cases queue.entries.getLast? with
  | none => simp
  | some previous =>
    simp only [coalesceEnqueuedAt, Option.map_some, Option.getD_some]
    split
    · rw [Nat.max_eq_right (by omega)]
    · rw [Nat.max_eq_left (by omega)]

theorem Edit.append {entry entry' : QueueEntry}
    (hop : op.draft = some draft) (hd : draft.entry = .ok entry)
    (h : append queue entry = .ok (queue', entry')) : Edit world op queue queue' := by
  obtain ⟨rfl, -⟩ := checked_eq_ok.mp hd
  obtain ⟨hq, rfl⟩ := append_ok h
  exact .appended hop hq rfl rfl rfl rfl rfl rfl

theorem Applied.claimNextMatching {rankedWorkers t turnId slotCeilings claim}
    (h : claimNextMatching world queue owner rankedWorkers t turnId slotCeilings =
      .ok (queue', claim)) : Applied world op queue queue' := by
  obtain ⟨hq, hq', tasks, -, hou⟩ := claimNextMatching_ok h
  refine ⟨hq, hq', ?_⟩
  cases hou with
  | nothing exhausted => exact .refl queue
  | @dispatched preferred others worker before after row row' ranked position claimable
    best state =>
    simp only at position
    have hr : row ∈ queue.entries := by simp [position]
    refine .started hr claimable.admissible.capacity (.replace SameRow.refl position (state ▸ rfl))
      ?_
    intro other hot
    rw [position]
    simp only [mem_append, mem_cons] at hot ⊢
    rcases hot with hb | rfl | ha
    · exact .inl ⟨other, .inl hb, .refl other⟩
    · exact .inr (state ▸ rfl)
    · exact .inl ⟨other, .inr (.inr ha), .refl other⟩

theorem claimParked_moved {taskId turnId observations nowMillis eligible result}
    (h : claimParkedFilteredForWaitingRunner world queue taskId turnId owner observations nowMillis
      eligible = .ok (queue', result)) :
    Steady Moved queue queue' ∧ ∀ op, Applied world op queue queue' := by
  obtain ⟨hq, hou, -⟩ := claimParked_ok h
  cases hou with
  | kept => exact ⟨.refl .refl queue, fun _ => ⟨hq, hq, .refl queue⟩⟩
  | @handed older rest before after source target target' tasks worker _ result position turn kind
      state table found chosen published claim wellFormed claimed =>
    have ha := reassignCandidate_some chosen.here
    have hne : older.length ≠ before.length :=
      positions_ne position found (by rw [state, ha.parked]; simp)
    have hs : source ∈ queue.entries := by simp [position]
    have ht : target ∈ queue.entries := by simp [found]
    have hpa := park_waiting (hq.wellFormed.listed source hs).valid kind state
    have hst := @Steady.set Moved queue .refl older.length source _ (getElem_split position)
      (.park hpa)
    have hta := (getElem?_set_ne (a := { source with state := .parked, slotReservation := none })
      hne).trans (getElem_split found)
    have hm : Steady Moved queue queue' := by
      rw [published]
      exact hst.trans (.set .refl hta (claim ▸ ⟨_, _, rfl⟩)) fun _ _ _ => .trans
    have hp : InPlace queue queue' := hm.imp fun _ _ => Moved.same
    refine ⟨hm, fun _ => ⟨hq, ⟨wellFormed, fun row' hr' => ?_⟩, .started ht ha.worker.capacity hp
      fun row' hr' => ?_⟩⟩
    · obtain ⟨row, hr, hsa⟩ := hp.origin row' hr'
      exact hsa.clientId.trans (hq.client row hr)
    subst published
    rcases mem_or_eq_of_mem_set hr' with hr' | rfl
    · rcases mem_or_eq_of_mem_set hr' with hr' | rfl
      · exact .inl ⟨row', hr', .refl row'⟩
      · exact .inl ⟨source, hs, .park hpa⟩
    · exact .inr (claim ▸ rfl)

/-- Undoing a reassignment parks the recipient's row, wakes the donor's and gives it back its
permit. What these three changes of a row keep, the call keeps. -/
theorem releaseReassignment_steady {R : QueueEntry → QueueEntry → Prop}
    (hr : ∀ row, R row row) (ht : ∀ a b c, R a b → R b c → R a c)
    (hpa : ∀ row row' : QueueEntry, row.park = .ok row' → R row row')
    (hu : ∀ (row row' : QueueEntry) owner, row.unpark owner = .ok row' → R row row')
    (hpe : ∀ (row row' : QueueEntry) permit, row.setSlotReservation permit = .ok row' → R row row')
    {sourceTask recipientTask source claim}
    (h : releaseWaitingRunnerReassignment world queue sourceTask source recipientTask claim owner =
      .ok queue') :
    Stored world.clientId queue ∧ queue'.WellFormed ∧ Steady R queue queue' := by
  unfold releaseWaitingRunnerReassignment requireQueueClient at h
  simp only [then_eq_ok, ensure_eq_ok, QueueSnapshot.validate_iff] at h
  obtain ⟨hwf, hc, h⟩ := h
  split at h
  · cases h
  split at h
  · cases h
  obtain ⟨-, h⟩ := of_then h
  obtain ⟨sourceRecord, -, h⟩ := of_bind h
  obtain ⟨recipientRecord, -, h⟩ := of_bind h
  obtain ⟨-, h⟩ := of_then h
  obtain ⟨parked, hp, h⟩ := of_bind h
  obtain ⟨waiting, hw, h⟩ := of_bind h
  obtain ⟨entries, hen, h⟩ := of_bind h
  rw [then_eq_ok, QueueSnapshot.validate_iff, pure_eq_ok] at h
  obtain ⟨hwf', rfl⟩ := h
  have hsp : Steady R queue { queue with entries := parked } := ⟨rfl, updateAt_rel hr hpa hp⟩
  have hsw : Steady R { queue with entries := parked } { queue with entries := waiting } :=
    ⟨rfl, updateAt_rel hr (fun row row' => hu row row' _) hw⟩
  have hse : Steady R { queue with entries := waiting } { queue with entries } :=
    ⟨rfl, updateAt_rel hr (fun row row' => hpe row row' _) hen⟩
  exact ⟨⟨hwf, hc⟩, hwf', (hsp.trans hsw ht).trans hse ht⟩

theorem Applied.releaseReassignment {sourceTask recipientTask source claim}
    (h : releaseWaitingRunnerReassignment world queue sourceTask source recipientTask claim owner =
      .ok queue') : Applied world op queue queue' := by
  obtain ⟨hq, hwf, hs⟩ := releaseReassignment_steady Revises.refl (fun _ _ _ => .trans)
    (fun _ _ => .park) (fun _ _ _ => .unpark) (fun _ _ _ => .setSlotReservation) h
  refine ⟨hq, ⟨hwf, fun row' hr' => ?_⟩, .revised hs⟩
  obtain ⟨row, hr, hre⟩ := hs.origin row' hr'
  exact hre.same.clientId.trans (hq.client row hr)

theorem Applied.enqueue (h : (QueueOp.enqueue draft).apply world queue =
    .ok queue') : Applied world (.enqueue draft) queue queue' := by
  obtain ⟨entry, hd, hen⟩ := of_bind h
  obtain ⟨⟨next, row⟩, hc, he⟩ := of_bind hen
  obtain rfl : next = queue' := pure_eq_ok.mp he
  refine Applied.updateQueue (of_then hc).2 fun hu => ?_
  rw [then_eq_ok] at hu
  exact .append rfl hd hu.2

theorem Applied.enqueueIfAbsent
    (h : (QueueOp.enqueueIfAbsent draft).apply world queue = .ok queue') :
    Applied world (.enqueueIfAbsent draft) queue queue' := by
  obtain ⟨entry, hd, hen⟩ := of_bind h
  obtain ⟨⟨next, row⟩, hc, he⟩ := of_bind hen
  obtain rfl : next = queue' := pure_eq_ok.mp he
  refine Applied.updateQueue (of_then hc).2 fun hu => ?_
  split at hu
  · cases hu
    exact .refl queue
  · exact .append rfl hd hu

theorem Applied.restore {entry : QueueEntry}
    (h : (QueueOp.restoreTaskTurnForSubmissionRollback entry).apply world queue = .ok queue') :
    Applied world (.restoreTaskTurnForSubmissionRollback entry) queue queue' := by
  obtain ⟨u, h⟩ := map_fst_eq_ok.mp h
  unfold restoreTaskTurnForSubmissionRollback at h
  rw [then_eq_ok] at h
  refine Applied.updateQueue h.2 fun hu => ?_
  split at hu
  · cases hu
    exact .refl queue
  · cases (of_then hu).2
    exact .restored rfl rfl rfl

theorem Applied.resume {jobId worker t}
    (h : (QueueOp.resumeAcceptedTurn jobId worker owner t).apply world queue = .ok queue') :
    Applied world (.resumeAcceptedTurn jobId worker owner t) queue queue' := by
  obtain ⟨entry, h⟩ := map_fst_eq_ok.mp h
  unfold Queue.resumeAcceptedTurn at h
  rw [then_eq_ok] at h
  obtain ⟨hq, hq', before, row, row', after, he, -, hc, rfl⟩ := updateRow_ok h.2
  obtain ⟨_, hr, hre⟩ := of_bind hc
  cases hre
  refine ⟨hq, hq', .resumed rfl (.replace SameRow.refl he ?_)⟩
  obtain ⟨rfl, -⟩ := dispatch_eq_ok.mp (of_then hr).2
  rfl

theorem Applied.unparkOldest (h : unparkOldest world queue owner = .ok (queue', result)) :
    Applied world op queue queue' := by
  unfold Queue.unparkOldest at h
  rw [then_eq_ok] at h
  obtain ⟨-, h⟩ := h
  split at h
  · refine Applied.updateQueue h fun hu => ?_
    cases hu
    exact .refl queue
  · refine Applied.updateRow (fun row row' b hc => ?_) h
    obtain ⟨_, hr, he⟩ := of_bind hc
    cases he
    exact .unpark hr

theorem Applied.unparkRow {jobId : JobId}
    (h : unparkRow world queue jobId owner = .ok (queue', result)) :
    Applied world op queue queue' := by
  refine Applied.updateRow (fun row row' b hc => ?_) (of_then h).2
  split at hc
  · cases hc; exact .refl row
  · obtain ⟨_, hr, he⟩ := of_bind hc
    cases he
    exact .unpark hr

theorem Applied.retainAttachedRow {expected : QueueEntry} {result : Bool}
    (h : retainAttachedRowIfCurrent world queue expected owner = .ok (queue', result)) :
    Applied world op queue queue' := by
  refine Applied.updateRow (fun row row' b hc => ?_) (of_then h).2
  split at hc
  · cases hc; exact .refl row
  · obtain ⟨cleared, hcl, hc⟩ := of_bind hc
    obtain ⟨_, ht, he⟩ := of_bind hc
    cases he
    exact (Revises.setSlotReservation hcl).trans (takeBack_revises ht)

theorem Applied.resetFailures {count : Nat}
    (h : resetReplacementFailures world queue owner = .ok (queue', count)) :
    Applied world op queue queue' := by
  refine Applied.updateQueue (of_then h).2 fun hu => ?_
  obtain ⟨entries, hm, he⟩ := of_bind hu
  cases he
  exact .revised ⟨rfl, mapM_rel (fun _ _ _ => resetReplacementFailure_revises) hm⟩

theorem Applied.tryPark {u : Unit}
    (h : tryParkAttachedWaiter world queue turnId owner = .ok (queue', u)) :
    Applied world op queue queue' := by
  refine Applied.onRow (fun older entry newer entries b hu => ?_) h
  split at hu
  · obtain ⟨parked, hp, he⟩ := of_bind hu
    cases he
    exact ⟨parked, rfl, .park hp⟩
  · cases hu
    exact ⟨entry, rfl, .refl entry⟩

theorem Applied.retainCancel
    (h : retainTaskTurnCancel world queue turnId t = .ok (queue', result)) :
    Applied world op queue queue' := by
  refine Applied.onRow (fun older entry newer entries b hu => ?_) h
  obtain ⟨cancelled, hc, he⟩ := of_bind (of_then hu).2
  cases he
  exact ⟨cancelled, rfl, .requestCancel hc⟩

theorem Applied.cancelHandoff
    (h : cancelUnstartedHandoff world queue turnId owner t = .ok (queue', result)) :
    Applied world op queue queue' := by
  refine Applied.onRow (fun older entry newer entries b hu => ?_) h
  split at hu
  · cases hu
    exact ⟨entry, rfl, .refl entry⟩
  · obtain ⟨cancelled, hc, he⟩ := of_bind hu
    cases he
    exact ⟨cancelled, rfl, .requestCancel hc⟩

/-- **Every successful operation is such an edit between stored queues.** -/
theorem QueueOp.apply_applied (h : op.apply world queue = .ok queue') :
    Applied world op queue queue' := by
  cases op with
  | enqueue draft => exact .enqueue h
  | enqueueIfAbsent draft => exact .enqueueIfAbsent h
  | restoreTaskTurnForSubmissionRollback entry => exact .restore h
  | resumeAcceptedTurn jobId worker owner nowMillis => exact .resume h
  | releaseWaitingRunnerReassignment sourceTask source recipientTask claim owner =>
    exact .releaseReassignment h
  | claimNextMatching owner rankedWorkers claimedAtMillis turnId slotCeilings =>
    exact .claimNextMatching (of_map_fst h)
  | claimParkedFilteredForWaitingRunner taskId turnId owner observations nowMillis eligible =>
    exact (claimParked_moved (of_map_fst h)).2 _
  | revertDispatch jobId dispatchOwner =>
    exact .changeRow (fun _ _ hc => .revert (mapError_eq_ok.mp hc))
      (of_then (of_map_fst h)).2
  | adoptRow jobId newOwner =>
    exact .changeRow (fun _ _ hc => .adopt (mapError_eq_ok.mp hc))
      (of_then (of_map_fst h)).2
  | retainAttachedRowIfCurrent expected owner => exact .retainAttachedRow (of_map_fst h)
  | parkRow jobId => exact .changeRow (fun _ _ => .park) (of_map_fst h)
  | tryParkAttachedWaiter turnId owner => exact .tryPark (of_map_fst h)
  | unparkRow jobId owner => exact .unparkRow (of_map_fst h)
  | unparkOldest owner => exact .unparkOldest (of_map_fst h)
  | recordReplacementFailure jobId publicCode atMillis =>
    refine .changeRow (fun row row' hc => ?_) (of_map_fst h)
    obtain ⟨budget, -, hs⟩ := of_bind hc
    exact .setReplacementFailure hs
  | resetReplacementFailures owner => exact .resetFailures (of_map_fst h)
  | retainTaskTurnCancel turnId requestedAtMillis => exact .retainCancel (of_map_fst h)
  | cancelUnstartedHandoff turnId owner now => exact .cancelHandoff (of_map_fst h)
  | removeQueued jobId => exact .removeRow rfl (of_map_fst h)
  | removeTaskTurnForSubmissionRollback turnId => exact .removeRow rfl (of_map_fst h)
  | removeTaskTurnAfterTerminal turnId owner =>
    exact .removeRow rfl (of_then (of_map_fst h)).2
  | reserveRunnerSlot jobId reserver slotLimit excludeReserver token =>
    exact .updateRow (fun _ _ _ => reserveRow_revises) (of_then (of_map_fst h)).2
  | releaseRunnerSlot jobId token reserver =>
    exact .updateRow (fun _ _ _ => releaseRow_revises) (of_then (of_map_fst h)).2
  | bindRunnerSlotChild jobId token child =>
    exact .updateRow (fun _ _ _ => bindRow_revises)
      (of_then (of_then (of_map_fst h)).2).2
  | takeOverReservedSlot jobId token child =>
    exact .updateRow (fun _ _ _ => takeOverRow_revises)
      (of_then (of_then (of_map_fst h)).2).2
  | publishSpawnedChild turnId token child =>
    exact .updateRow (fun _ _ _ h => (publishChildRow_revises h).1)
      (of_then (of_then (of_map_fst h)).2).2
  | clearPermit turnId token child =>
    exact .updateRow (fun _ _ _ h => (clearPermitRow_revises h).1) (of_map_fst h)

end

end MacWorker.Queue
