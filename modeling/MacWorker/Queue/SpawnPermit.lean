import MacWorker.Lib.Reach
import MacWorker.Queue.Capacity

/-! # Spawn permits

Before a runner is started for a queued turn, the starter reserves a slot on the row. The
reservation carries a token that is new for every attempt, and later the process that was
started. A reservation whose holders are all known to have exited may be replaced
("stolen"); the started process takes over the row with the token, and completing the
start clears the reservation.

Each operation is a change of one row, published by `updateRow`. Completing a start
publishes twice and writes the task record in between, so it can leave the first
publication behind. -/
namespace MacWorker.Queue
open Fallible

/-! ## Who holds a slot -/

variable (world : World) (queue : QueueSnapshot) (token : Uuid) (child : ProcessIdentity)
  (entry : QueueEntry) (reserver : ProcessIdentity)

/-- The process that acts for the row: its dispatcher, or whoever adopted it from
the process that queued it. -/
def actingQueueHolder : Option ProcessIdentity :=
  match entry.state with
  | .dispatching dispatchOwner _ _ =>
    if world.observationCountsAsSlot dispatchOwner then some dispatchOwner else none
  | .waiting owner =>
    if owner ≠ entry.enqueueOwner ∧ world.observationCountsAsSlot owner = true then some owner
    else none
  | .parked => none

/-- The turn is the task's current, unfinished turn. A task without a turn on its
status is asked for its submission intent and its turn directories. -/
def taskHoldsCurrentTurn (task : LocalTaskRecord) (turnId : TurnId) : Bool :=
  match task.status.turns.getLast? with
  | some current => current.turnId == turnId && current.terminal.isNone
  | none => task.submissionIntentTurnId == some turnId ||
      (world.turnIds task.info.taskId).contains turnId

def liveRunnerForCurrentTurn (turnId : TurnId) : Option ProcessIdentity :=
  world.occupancyTasks.findSome? fun task =>
    task.runner.filter fun runner =>
      world.observationCountsAsSlot runner && taskHoldsCurrentTurn world task turnId

/-- The holder of the row whose slot is being reserved is the process reserving it. -/
def recoveredController (reserving : Option (JobId × ProcessIdentity)) (entry : QueueEntry)
    (holder : ProcessIdentity) : Bool :=
  reserving.any fun (jobId, reserver) =>
    entry.jobId == jobId && holder == reserver && entry.slotReservation.isNone &&
      (liveRunnerForCurrentTurn world jobId).isNone

/-- Live runners and acting holders, each process once, and every reservation. -/
def occupiedRunnerSlots (exclude : Option ProcessIdentity)
    (reserving : Option (JobId × ProcessIdentity)) : Nat :=
  let turns := queue.entries.filter (·.kind == .taskTurn)
  let runners := (world.occupancyTasks.filterMap (·.runner)).filter fun runner =>
    exclude != some runner && world.observationCountsAsSlot runner
  let holders := turns.filterMap fun entry =>
    (actingQueueHolder world entry).filter fun holder =>
      exclude != some holder && !recoveredController world reserving entry holder
  (runners ++ holders).toFinset.card + turns.countP (·.slotReservation.isSome)

/-! ## The operations -/

inductive RunnerSlotDecision where
  | acquired (token : Uuid)
  | pending (token : Uuid)
  | saturated

inductive ReservedSlotTakeover where
  | ready
  | waitingForLiveOwner

def slotTokenMismatch : WorkerError :=
  .queue "QUEUE_SLOT_TOKEN_MISMATCH" "runner slot token is no longer current"

/-- A holder of the row other than the process that asks. -/
def foreignQueueHolder : Option ProcessIdentity :=
  (actingQueueHolder world entry).filter (· != reserver)

/-- Why a reservation cannot be made now; `none` when it can. -/
def reservationRefusal (slotLimit : Nat) (excludeReserver : Bool) : Option RunnerSlotDecision :=
  let runnerHolder := liveRunnerForCurrentTurn world entry.jobId
  let foreignHolder := foreignQueueHolder world entry reserver
  match entry.slotReservation with
  | some reservation =>
    if runnerHolder.isSome || foreignHolder.isSome ||
        world.observationCountsAsSlot reservation.reserver ||
        reservation.child.any world.observationCountsAsSlot then
      some (.pending reservation.token)
    else none
  | none =>
    if runnerHolder.isSome || foreignHolder.isSome then some (.pending 0)
    else if occupiedRunnerSlots world queue (if excludeReserver then some reserver else none)
        (some (entry.jobId, reserver)) ≥ slotLimit then some .saturated
    else none

def reserveRow (slotLimit : Nat) (excludeReserver : Bool) (token : Uuid) (entry : QueueEntry) :
    Except WorkerError (QueueEntry × RunnerSlotDecision) := do
  ensure (entry.kind = .taskTurn)
    (.queue "QUEUE_KIND_CONFLICT" "runner slots apply only to task turns")
  match reservationRefusal world queue entry reserver slotLimit excludeReserver with
  | some refusal => return (entry, refusal)
  | none =>
    let reservation ← RunnerSlotReservation.new reserver token
    let entry ← entry.setSlotReservation (some reservation)
    return (entry, .acquired token)

/-- `token` is the freshly drawn identifier of this attempt. -/
def reserveRunnerSlot (jobId : JobId) (reserver : ProcessIdentity) (slotLimit : Nat)
    (excludeReserver : Bool) (token : Uuid) :
    Except WorkerError (QueueSnapshot × RunnerSlotDecision) := do
  reserver.validate
  updateRow world.clientId queue jobId
    (reserveRow world queue reserver slotLimit excludeReserver token)

def releaseRow (entry : QueueEntry) : Except WorkerError (QueueEntry × QueueEntry) := do
  -- Only the starter's own reservation, and only while nothing was started with it.
  if entry.slotReservation = some ⟨reserver, token, none⟩ then
    let entry ← entry.setSlotReservation none
    return (entry, entry)
  else return (entry, entry)

def releaseRunnerSlot (jobId : JobId) (token : Uuid) (reserver : ProcessIdentity) :
    Except WorkerError (QueueSnapshot × QueueEntry) := do
  reserver.validate
  updateRow world.clientId queue jobId (releaseRow token reserver)

def bindRow : Except WorkerError (QueueEntry × QueueEntry) :=
  match entry.slotReservation with
  | some reservation =>
    if reservation.token = token then do
      let entry ← entry.setSlotReservation (some (← reservation.withChild child))
      return (entry, entry)
    else .error slotTokenMismatch
  | none => .error slotTokenMismatch

def bindRunnerSlotChild (jobId : JobId) (token : Uuid) (child : ProcessIdentity) :
    Except WorkerError (QueueSnapshot × QueueEntry) := do
  child.validate
  ensure (token ≠ 0) slotTokenMismatch
  updateRow world.clientId queue jobId (bindRow token child)

def takeOverRow : Except WorkerError (QueueEntry × ReservedSlotTakeover) :=
  match entry.slotReservation with
  | some reservation =>
    if reservation.token ≠ token then .error slotTokenMismatch
    else if reservation.child.any
        (fun bound => bound != child && world.observationCountsAsSlot bound) then
      .error slotTokenMismatch
    else
      match entry.ownerOpt with
      | some owner =>
        if owner = child then .ok (entry, .ready)
        else if world.observationCountsAsSlot owner then .ok (entry, .waitingForLiveOwner)
        else do
          let entry ← entry.adopt child
          return (entry, .ready)
      | none => .error slotTokenMismatch
  | none => if entry.ownerOpt = some child then .ok (entry, .ready) else .error slotTokenMismatch

def takeOverReservedSlot (jobId : JobId) (token : Uuid) (child : ProcessIdentity) :
    Except WorkerError (QueueSnapshot × ReservedSlotTakeover) := do
  child.validate
  ensure (token ≠ 0) slotTokenMismatch
  updateRow world.clientId queue jobId (takeOverRow world token child)

/-! ## Completing a start -/

/-- The call may complete the start: its token is current and nobody else was
bound, or the permit is gone and the row already belongs to the child. -/
def completionAllowed : Except WorkerError Unit :=
  match entry.slotReservation with
  | some reservation =>
    ensure (reservation.token = token ∧ reservation.child.all (· == child) = true) slotTokenMismatch
  | none => ensure (entry.ownerOpt = some child) slotTokenMismatch

def adoptUnlessOwned : Except WorkerError QueueEntry :=
  if entry.ownerOpt ≠ some child then entry.adopt child else .ok entry

def publishChildRow : Except WorkerError (QueueEntry × Unit) := do
  completionAllowed token child entry
  let entry ← adoptUnlessOwned child entry
  match entry.slotReservation with
  | some reservation =>
    let entry ← entry.setSlotReservation (some (← reservation.withChild child))
    return (entry, ())
  | none => return (entry, ())

def publishSpawnedChild (turnId : TurnId) (token : Uuid) (child : ProcessIdentity) :
    Except WorkerError (QueueSnapshot × Unit) := do
  child.validate
  ensure (token ≠ 0) slotTokenMismatch
  updateRow world.clientId queue turnId (publishChildRow token child)

def clearPermitRow : Except WorkerError (QueueEntry × QueueEntry) :=
  match entry.slotReservation with
  | some reservation =>
    if reservation.token = token then do
      let entry ← entry.setSlotReservation none
      return (entry, entry)
    else .error slotTokenMismatch
  | none => if entry.ownerOpt = some child then .ok (entry, entry) else .error slotTokenMismatch

/-- What a call that completes a start has published when it returns. -/
structure Completion where
  queue : QueueSnapshot
  /-- The task record whose runner was written. -/
  runner : Option (TaskId × ProcessIdentity)
  result : Except WorkerError QueueEntry

def completeRunnerSpawn (taskId : TaskId) (turnId : TurnId) (token : Uuid)
    (child : ProcessIdentity) : Completion :=
  match publishSpawnedChild world queue turnId token child with
  | .error error => ⟨queue, none, .error error⟩
  | .ok (published, ()) =>
    match world.loadTask taskId with
    | .error error => ⟨published, none, .error error⟩
    | .ok _ =>
      match updateRow world.clientId published turnId (clearPermitRow token child) with
      | .error error => ⟨published, some (taskId, child), .error error⟩
      | .ok (next, entry) => ⟨next, some (taskId, child), .ok entry⟩

/-! ## What each change does to the row -/

section
open QueueEntry
variable {world : World} {queue : QueueSnapshot} {token : Uuid} {process : ProcessIdentity}
  {row row' : QueueEntry}

theorem reserveRow_ok {slotLimit excludeReserver decision}
    (h : reserveRow world queue process slotLimit excludeReserver token row =
      .ok (row', decision)) :
    row' = row ∨ (reservationRefusal world queue row process slotLimit excludeReserver = none ∧
      row.setSlotReservation (some ⟨process, token, none⟩) = .ok row') := by
  unfold reserveRow at h
  rw [then_eq_ok] at h
  obtain ⟨-, h⟩ := h
  split at h
  · cases h; exact .inl rfl
  · rename_i hr
    obtain ⟨reservation, hn, h⟩ := of_bind h
    obtain ⟨-, rfl⟩ := RunnerSlotReservation.new_eq_ok.mp hn
    obtain ⟨_, hs, h⟩ := of_bind h
    cases h
    exact .inr ⟨hr, hs⟩

variable {result : QueueEntry}

theorem releaseRow_ok (h : releaseRow token process row = .ok (row', result)) :
    row' = row ∨ (row.slotReservation = some ⟨process, token, none⟩ ∧
      row.setSlotReservation none = .ok row') := by
  unfold releaseRow at h
  split at h
  · rename_i hh
    obtain ⟨_, hs, h⟩ := of_bind h
    cases h
    exact .inr ⟨hh, hs⟩
  · cases h; exact .inl rfl

theorem bindRow_ok (h : bindRow token process row = .ok (row', result)) :
    ∃ r, row.slotReservation = some r ∧ r.token = token ∧
      row.setSlotReservation (some { r with child := some process }) = .ok row' := by
  unfold bindRow at h
  split at h
  · rename_i r hh
    obtain ⟨ht, h⟩ := of_if h
    obtain ⟨_, hc, h⟩ := of_bind h
    obtain ⟨-, rfl⟩ := RunnerSlotReservation.withChild_eq_ok.mp hc
    obtain ⟨_, hs, h⟩ := of_bind h
    cases h
    exact ⟨r, hh, ht, hs⟩
  · cases h

theorem takeOverRow_ok {result} (h : takeOverRow world token process row = .ok (row', result)) :
    row' = row ∨ ∃ r owner, row.slotReservation = some r ∧ r.token = token ∧
      row.ownerOpt = some owner ∧ world.observationCountsAsSlot owner = false ∧
      row.adopt process = .ok row' := by
  unfold takeOverRow at h
  split at h
  · rename_i r hh
    obtain ⟨ht, h⟩ := of_unless h
    obtain ⟨-, h⟩ := of_unless h
    split at h
    · rename_i owner how
      split at h
      · cases h; exact .inl rfl
      · split at h
        · cases h; exact .inl rfl
        · rename_i hl
          obtain ⟨_, ha, h⟩ := of_bind h
          cases h
          exact .inr ⟨r, owner, hh, not_not.mp ht, how, by simpa using hl, ha⟩
    · cases h
  · split at h
    · cases h; exact .inl rfl
    · cases h

/-- The first publication of a completion: the child owns the row and is bound to
the permit, unless there is no permit any more. -/
theorem publishChildRow_ok {u} (h : publishChildRow token process row = .ok (row', u)) :
    (∃ r, row.slotReservation = some r ∧ r.token = token ∧ (∀ c, r.child = some c → c = process) ∧
      row'.slotReservation = some { r with child := some process } ∧
      row'.ownerOpt = some process ∧ Revises row row' ∧ Moved row row') ∨
    (row.slotReservation = none ∧ row.ownerOpt = some process ∧ row' = row) := by
  unfold publishChildRow completionAllowed at h
  rw [then_eq_ok] at h
  obtain ⟨ha, h⟩ := h
  obtain ⟨owned, how, h⟩ := of_bind h
  have hm : owned.ownerOpt = some process ∧ owned.slotReservation = row.slotReservation ∧
      Revises row owned ∧ Moved row owned := by
    unfold adoptUnlessOwned at how
    split at how
    · exact ⟨(adopt_owner how).1, (adopt_owner how).2, .adopt how, .adopt how⟩
    · rename_i hon
      cases how
      exact ⟨not_not.mp hon, rfl, .refl row, .refl row⟩
  cases hh : row.slotReservation with
  | none =>
    simp only [hh, ensure_eq_ok] at ha
    simp only [adoptUnlessOwned, ha, ne_eq, not_true_eq_false, if_false, Except.ok.injEq] at how
    rw [hm.2.1, hh] at h
    cases h
    exact .inr ⟨rfl, ha, how.symm⟩
  | some r =>
    simp only [hh, ensure_eq_ok] at ha
    rw [hm.2.1, hh] at h
    obtain ⟨_, hch, h⟩ := of_bind h
    obtain ⟨-, rfl⟩ := RunnerSlotReservation.withChild_eq_ok.mp hch
    obtain ⟨_, hs, h⟩ := of_bind h
    cases h
    refine .inl ⟨r, rfl, ha.1, fun c hc => ?_, ?_⟩
    · simpa [hc] using ha.2
    · obtain ⟨rfl, -⟩ := setSlotReservation_ok hs
      exact ⟨rfl, hm.1, hm.2.2.1.trans (.setSlotReservation hs),
        hm.2.2.2.trans (.setSlotReservation hs)⟩

theorem clearPermitRow_ok (h : clearPermitRow token process row = .ok (row', result)) :
    (∃ r, row.slotReservation = some r ∧ r.token = token ∧ row.setSlotReservation none = .ok row') ∨
    (row.slotReservation = none ∧ row' = row) := by
  unfold clearPermitRow at h
  split at h
  · rename_i r hh
    obtain ⟨ht, h⟩ := of_if h
    obtain ⟨_, hs, h⟩ := of_bind h
    cases h
    exact .inl ⟨r, hh, ht, hs⟩
  · rename_i hv
    split at h
    · cases h; exact .inr ⟨hv, rfl⟩
    · cases h

/-! ## What each change keeps -/

theorem reserveRow_revises {slotLimit excludeReserver decision}
    (h : reserveRow world queue process slotLimit excludeReserver token row =
      .ok (row', decision)) :
    Revises row row' := by
  obtain rfl | ⟨-, hs⟩ := reserveRow_ok h
  · exact .refl row'
  · exact .setSlotReservation hs

theorem releaseRow_revises (h : releaseRow token process row = .ok (row', result)) :
    Revises row row' := by
  obtain rfl | ⟨-, hs⟩ := releaseRow_ok h
  · exact .refl row'
  · exact .setSlotReservation hs

theorem bindRow_revises (h : bindRow token process row = .ok (row', result)) :
    Revises row row' := by
  obtain ⟨_, -, -, hs⟩ := bindRow_ok h
  exact .setSlotReservation hs

theorem takeOverRow_revises {result}
    (h : takeOverRow world token process row = .ok (row', result)) :
    Revises row row' := by
  obtain rfl | ⟨_, _, -, -, -, -, ha⟩ := takeOverRow_ok h
  · exact .refl row'
  · exact .adopt ha

theorem publishChildRow_revises {u} (h : publishChildRow token process row = .ok (row', u)) :
    Revises row row' ∧ Moved row row' := by
  obtain ⟨_, -, -, -, -, -, hr⟩ | ⟨-, -, rfl⟩ := publishChildRow_ok h
  · exact hr
  · exact ⟨.refl row', .refl row'⟩

theorem clearPermitRow_revises (h : clearPermitRow token process row = .ok (row', result)) :
    Revises row row' ∧ Moved row row' := by
  obtain ⟨_, -, -, hs⟩ | ⟨-, rfl⟩ := clearPermitRow_ok h
  · exact ⟨.setSlotReservation hs, .setSlotReservation hs⟩
  · exact ⟨.refl row', .refl row'⟩

end

end MacWorker.Queue
