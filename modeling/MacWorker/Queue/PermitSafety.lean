import MacWorker.Queue.SpawnPermit

/-! # What a spawn permit guarantees

Any number of processes call the permit operations on one row, in any order, each with its
own view of the store and of who is alive. `PermitState` keeps, beside the queue, the
tokens drawn so far, those that a replaced reservation made stale, and the process whose
start was completed last, for as long as every call has counted it alive.

`Exclusive` collects the guarantees of one call. They hold in every run whose calls
satisfy `Guarded`; without it a second process can be bound over a live one, a stale token
can write a runner, and a finished start can be redone. -/
namespace MacWorker.Queue
open Fallible Relation

/-! ## Calls -/

/-- The publications of a completion that a dying process leaves behind. -/
inductive DiesAfter where
  | publishing
  | recording

inductive PermitCall where
  | reserve (reserver : ProcessIdentity) (slotLimit : Nat) (excludeReserver : Bool) (token : Uuid)
  | release (token : Uuid) (reserver : ProcessIdentity)
  | bind (token : Uuid) (child : ProcessIdentity)
  | takeOver (token : Uuid) (child : ProcessIdentity)
  | complete (taskId : TaskId) (token : Uuid) (child : ProcessIdentity) (dies : Option DiesAfter)

/-- The token a call presents. A reservation presents none; it draws one. -/
def PermitCall.token : PermitCall → Option Uuid
  | .reserve _ _ _ _ => none
  | .release token _ => some token
  | .bind token _ => some token
  | .takeOver token _ => some token
  | .complete _ token _ _ => some token

/-- What a call leaves in the store, whether it succeeds or not. -/
structure Published where
  queue : QueueSnapshot
  runner : Option (TaskId × ProcessIdentity)
  completed : Option ProcessIdentity

def queueAfter {β : Type} (queue : QueueSnapshot)
    (result : Except WorkerError (QueueSnapshot × β)) : QueueSnapshot :=
  match result with
  | .ok (queue', _) => queue'
  | .error _ => queue

def Completion.published (completion : Completion) (child : ProcessIdentity) : Published where
  queue := completion.queue
  runner := completion.runner
  completed := completion.result.toOption.map fun _ => child

/-- A completion whose process dies between its publications. -/
def interruptedCompletion (world : World) (queue : QueueSnapshot) (taskId : TaskId)
    (turnId : TurnId) (token : Uuid) (child : ProcessIdentity) (dies : DiesAfter) : Published :=
  match publishSpawnedChild world queue turnId token child with
  | .error _ => ⟨queue, none, none⟩
  | .ok (published, ()) =>
    match dies, world.loadTask taskId with
    | .recording, .ok _ => ⟨published, some (taskId, child), none⟩
    | _, _ => ⟨published, none, none⟩

def PermitCall.perform (world : World) (queue : QueueSnapshot) (jobId : JobId) :
    PermitCall → Published
  | .reserve reserver slotLimit excludeReserver token =>
    ⟨queueAfter queue
      (reserveRunnerSlot world queue jobId reserver slotLimit excludeReserver token), none, none⟩
  | .release token reserver =>
    ⟨queueAfter queue (releaseRunnerSlot world queue jobId token reserver), none, none⟩
  | .bind token child =>
    ⟨queueAfter queue (bindRunnerSlotChild world queue jobId token child), none, none⟩
  | .takeOver token child =>
    ⟨queueAfter queue (takeOverReservedSlot world queue jobId token child), none, none⟩
  | .complete taskId token child none =>
    (completeRunnerSpawn world queue taskId jobId token child).published child
  | .complete taskId token child (some dies) =>
    interruptedCompletion world queue taskId jobId token child dies

/-! ## What a call can do to the row -/

/-- Every way in which a call changes the row, writes a runner or completes a start. -/
inductive RowStep (world : World) (queue : QueueSnapshot) : PermitCall → QueueEntry → QueueEntry →
    Option (TaskId × ProcessIdentity) → Option ProcessIdentity → Prop
  | kept {call : PermitCall} {row : QueueEntry} : RowStep world queue call row row none none
  | acquired {reserver : ProcessIdentity} {slotLimit : Nat} {excludeReserver : Bool} {token : Uuid}
      {row : QueueEntry}
      (granted : reservationRefusal world queue row reserver slotLimit excludeReserver = none) :
      RowStep world queue (.reserve reserver slotLimit excludeReserver token) row
        { row with slotReservation := some ⟨reserver, token, none⟩ } none none
  | released {token : Uuid} {reserver : ProcessIdentity} {row : QueueEntry}
      (held : row.slotReservation = some ⟨reserver, token, none⟩) :
      RowStep world queue (.release token reserver) row { row with slotReservation := none } none
        none
  | bound {child : ProcessIdentity} {row : QueueEntry} {r : RunnerSlotReservation}
      (held : row.slotReservation = some r) :
      RowStep world queue (.bind r.token child) row
        { row with slotReservation := some { r with child := some child } } none none
  | takenOver {child : ProcessIdentity} {row row' : QueueEntry} {r : RunnerSlotReservation}
      (held : row.slotReservation = some r)
      (kept : row'.slotReservation = row.slotReservation)
      (job : row'.jobId = row.jobId) :
      RowStep world queue (.takeOver r.token child) row row' none none
  | publishedChild {taskId : TaskId} {child : ProcessIdentity} {row row' : QueueEntry}
      {r : RunnerSlotReservation} {dies : Option DiesAfter}
      {runner : Option (TaskId × ProcessIdentity)}
      (held : row.slotReservation = some r)
      (permit : row'.slotReservation = some { r with child := some child })
      (unbound : ∀ c, r.child = some c → c = child)
      (job : row'.jobId = row.jobId) :
      RowStep world queue (.complete taskId r.token child dies) row row' runner none
  | completed {taskId : TaskId} {child : ProcessIdentity} {row row' : QueueEntry}
      {r : RunnerSlotReservation}
      (held : row.slotReservation = some r)
      (unbound : ∀ c, r.child = some c → c = child)
      (owner : row'.ownerOpt = some child)
      (cleared : row'.slotReservation = none)
      (job : row'.jobId = row.jobId) :
      RowStep world queue (.complete taskId r.token child none) row row' (some (taskId, child))
        (some child)
  | confirmed {taskId : TaskId} {token : Uuid} {child : ProcessIdentity} {row : QueueEntry}
      {dies : Option DiesAfter} {runner : Option (TaskId × ProcessIdentity)}
      {completed : Option ProcessIdentity}
      (vacant : row.slotReservation = none)
      (owner : row.ownerOpt = some child)
      (written : ∀ w, runner = some w → w = (taskId, child))
      (done : ∀ c, completed = some c → c = child) :
      RowStep world queue (.complete taskId token child dies) row row runner completed

section
variable {world : World} {queue : QueueSnapshot} {jobId : JobId}

theorem row_jobId {row} (h : queue.row jobId = some row) : row.jobId = jobId := by
  simpa using List.find?_some h

def Performed (world : World) (queue : QueueSnapshot) (jobId : JobId) (call : PermitCall)
    (out : Published) : Prop :=
  out.queue.WellFormed ∧ ((out.queue = queue ∧ out.runner = none ∧ out.completed = none) ∨
    ∃ row row', queue.row jobId = some row ∧ out.queue.row jobId = some row' ∧
      RowStep world queue call row row' out.runner out.completed)

theorem performed_of_update {β : Type} {call : PermitCall}
    {change : QueueEntry → Except WorkerError (QueueEntry × β)}
    {result : Except WorkerError (QueueSnapshot × β)} (hq : queue.WellFormed)
    (hre : ∀ row row' b, change row = .ok (row', b) → row.Revises row')
    (hrs : ∀ queue' b, result = .ok (queue', b) →
      updateRow world.clientId queue jobId change = .ok (queue', b))
    (hs : ∀ row row' b, queue.row jobId = some row → change row = .ok (row', b) →
      RowStep world queue call row row' none none) :
    Performed world queue jobId call ⟨queueAfter queue result, none, none⟩ := by
  cases hr : result with
  | error e => exact ⟨hq, .inl ⟨rfl, rfl, rfl⟩⟩
  | ok out =>
    obtain ⟨queue', b⟩ := out
    obtain ⟨hwf, row, row', hro, hc, hr'⟩ :=
      updateRow_row (fun row row' b h => (hre row row' b h).same) (hrs queue' b hr)
    exact ⟨hwf, .inr ⟨row, row', hro, hr', hs row row' b hro hc⟩⟩

variable {child : ProcessIdentity}

theorem publishSpawnedChild_row {token queue'}
    (h : publishSpawnedChild world queue jobId token child = .ok (queue', ())) :
    queue'.WellFormed ∧ ∃ row row', queue.row jobId = some row ∧
      publishChildRow token child row = .ok (row', ()) ∧ queue'.row jobId = some row' := by
  unfold publishSpawnedChild at h
  simp only [then_eq_ok] at h
  exact updateRow_row (fun row row' b h => (publishChildRow_revises h).1.same) h.2.2

theorem Performed.interrupted {taskId token dies queue' runner}
    (h : publishSpawnedChild world queue jobId token child = .ok (queue', ()))
    (hr : ∀ w, runner = some w → w = (taskId, child)) :
    Performed world queue jobId (.complete taskId token child dies) ⟨queue', runner, none⟩ := by
  obtain ⟨hwf, row, row', hro, hc, hr'⟩ := publishSpawnedChild_row h
  refine ⟨hwf, .inr ⟨row, row', hro, hr', ?_⟩⟩
  obtain ⟨r, hh, rfl, hb, hp, -, hre, -⟩ | ⟨hv, how, rfl⟩ := publishChildRow_ok hc
  · exact .publishedChild hh hp hb hre.same.jobId
  · exact .confirmed hv how hr (fun c hc => by cases hc)

theorem Performed.complete {taskId token} (hq : queue.WellFormed) :
    Performed world queue jobId (.complete taskId token child none)
      ((completeRunnerSpawn world queue taskId jobId token child).published child) := by
  unfold completeRunnerSpawn
  cases hpu : publishSpawnedChild world queue jobId token child with
  | error e => exact ⟨hq, .inl ⟨rfl, rfl, rfl⟩⟩
  | ok out =>
    obtain ⟨published, ⟨⟩⟩ := out
    dsimp only
    cases ht : world.loadTask taskId with
    | error e => exact .interrupted hpu (fun w hw => by cases hw)
    | ok record =>
      dsimp only
      cases hcl : updateRow world.clientId published jobId (clearPermitRow token child) with
      | error e =>
        exact .interrupted hpu (fun w hw => (Option.some.inj hw).symm)
      | ok out =>
        obtain ⟨next, entry⟩ := out
        obtain ⟨-, row, middle, hr, hc, hm⟩ := publishSpawnedChild_row hpu
        obtain ⟨hwf, middle', row', hm', hc', hr'⟩ :=
          updateRow_row (fun row row' b h => (clearPermitRow_revises h).1.same) hcl
        cases hm.symm.trans hm'
        refine ⟨hwf, .inr ⟨row, row', hr, hr', ?_⟩⟩
        obtain ⟨r, hh, rfl, hb, hp, how, hre, -⟩ | ⟨hv, how, rfl⟩ := publishChildRow_ok hc
        · obtain ⟨_, -, -, hse⟩ | ⟨hn, -⟩ := clearPermitRow_ok hc'
          · obtain ⟨rfl, -⟩ := QueueEntry.setSlotReservation_ok hse
            exact .completed hh hb how rfl hre.same.jobId
          · rw [hp] at hn
            cases hn
        · obtain ⟨_, hs, -⟩ | ⟨-, rfl⟩ := clearPermitRow_ok hc'
          · rw [hv] at hs
            cases hs
          · exact .confirmed hv how (fun w hw => (Option.some.inj hw).symm)
              (fun c hc => (Option.some.inj hc).symm)

theorem Performed.dying {taskId token dies} (hq : queue.WellFormed) :
    Performed world queue jobId (.complete taskId token child (some dies))
      (interruptedCompletion world queue taskId jobId token child dies) := by
  unfold interruptedCompletion
  cases hp : publishSpawnedChild world queue jobId token child with
  | error e => exact ⟨hq, .inl ⟨rfl, rfl, rfl⟩⟩
  | ok out =>
    obtain ⟨published, ⟨⟩⟩ := out
    dsimp only
    split
    · exact .interrupted hp (fun w hw => (Option.some.inj hw).symm)
    · exact .interrupted hp (fun w hw => by cases hw)

/-- **A call does one of eight things to the row.** -/
theorem perform_row (world : World) (jobId : JobId) (hq : queue.WellFormed) (call : PermitCall) :
    Performed world queue jobId call (call.perform world queue jobId) := by
  cases call with
  | reserve reserver slotLimit excludeReserver token =>
    refine performed_of_update hq (fun _ _ _ => reserveRow_revises)
      (fun _ _ h => (of_then h).2) (fun row row' b hro hc => ?_)
    obtain rfl | ⟨hr, hs⟩ := reserveRow_ok hc
    · exact .kept
    · obtain ⟨rfl, -⟩ := QueueEntry.setSlotReservation_ok hs
      exact .acquired hr
  | release token reserver =>
    refine performed_of_update hq (fun _ _ _ => releaseRow_revises)
      (fun _ _ h => (of_then h).2) (fun row row' b hro hc => ?_)
    obtain rfl | ⟨hh, hs⟩ := releaseRow_ok hc
    · exact .kept
    · obtain ⟨rfl, -⟩ := QueueEntry.setSlotReservation_ok hs
      exact .released hh
  | bind token child =>
    refine performed_of_update hq (fun _ _ _ => bindRow_revises)
      (fun _ _ h => (of_then (of_then h).2).2) (fun row row' b hro hc => ?_)
    obtain ⟨r, hh, rfl, hs⟩ := bindRow_ok hc
    obtain ⟨rfl, -⟩ := QueueEntry.setSlotReservation_ok hs
    exact .bound hh
  | takeOver token child =>
    refine performed_of_update hq (fun _ _ _ => takeOverRow_revises)
      (fun _ _ h => (of_then (of_then h).2).2) (fun row row' b hro hc => ?_)
    obtain rfl | ⟨r, owner, hh, rfl, how, hex, ha⟩ := takeOverRow_ok hc
    · exact .kept
    · exact .takenOver hh (QueueEntry.adopt_owner ha).2 (QueueEntry.Revises.adopt ha).same.jobId
  | complete taskId token child dies =>
    cases dies with
    | none => exact .complete hq
    | some dies => exact .dying hq

end

/-! ## Runs -/

def QueueSnapshot.permit (queue : QueueSnapshot) (jobId : JobId) : Option RunnerSlotReservation :=
  (queue.row jobId).bind (·.slotReservation)

structure PermitState where
  queue : QueueSnapshot
  /-- Every token that has been on the row. -/
  issued : List Uuid
  /-- The tokens that were drawn before the last replacement of a reservation. -/
  superseded : List Uuid
  /-- Whose start was completed last, while every call since has counted it alive. -/
  completed : Option ProcessIdentity

def PermitState.start (jobId : JobId) (queue : QueueSnapshot) : PermitState where
  queue := queue
  issued := ((queue.permit jobId).map (·.token)).toList
  superseded := []
  completed := none

def PermitState.next (state : PermitState) (world : World) (jobId : JobId) (call : PermitCall) :
    PermitState :=
  let out := call.perform world state.queue jobId
  let old := (state.queue.permit jobId).map (·.token)
  let new := (out.queue.permit jobId).map (·.token)
  { queue := out.queue
    issued := new.toList ++ state.issued
    superseded := if old.isSome ∧ new.isSome ∧ old ≠ new then state.issued else state.superseded
    completed := out.completed <|> state.completed.filter world.observationCountsAsSlot }

/-- A reservation draws a token that was never on the row. -/
def PermitState.Fresh (state : PermitState) : PermitCall → Prop
  | .reserve _ _ _ token => token ∉ state.issued
  | _ => True

/-- What the operations themselves do not check. -/
def PermitState.Guarded (state : PermitState) (world : World) (jobId : JobId) : PermitCall → Prop
  -- A child is not bound over another one that still counts as alive.
  | .bind token child => ∀ r c, state.queue.permit jobId = some r → r.token = token →
      r.child = some c → c = child ∨ world.observationCountsAsSlot c = false
  -- A stale token is not used to make the row's owner the runner of a task.
  | .complete taskId token child _ => token ∈ state.superseded →
      ∀ row, state.queue.row jobId = some row → row.slotReservation = none →
        row.ownerOpt = some child → ∀ record, world.loadTask taskId = .ok record →
          record.runner = some child
  -- After a completed start, the store still shows the child at work on this turn.
  | .reserve reserver slotLimit excludeReserver _ => ∀ c, state.completed = some c →
      world.observationCountsAsSlot c = true → ∀ row, state.queue.row jobId = some row →
        (liveRunnerForCurrentTurn world jobId).isSome = true ∨
        (foreignQueueHolder world row reserver).isSome = true ∨
        slotLimit ≤ occupiedRunnerSlots world state.queue
          (if excludeReserver then some reserver else none) (some (jobId, reserver))
  | _ => True

/-- One call of a run, by any process and with any view of the store. -/
def PermitStep (jobId : JobId) (state state' : PermitState) : Prop :=
  ∃ world call, state.Fresh call ∧ state.Guarded world jobId call ∧
    state' = state.next world jobId call

structure PermitState.Exclusive (state : PermitState) (world : World) (jobId : JobId)
    (call : PermitCall) : Prop where
  current : ∀ a ∈ state.queue.entries, ∀ b ∈ state.queue.entries, a.jobId = jobId →
    b.jobId = jobId → ∀ r r', a.slotReservation = some r → b.slotReservation = some r' →
      r.token = r'.token
  /-- A token from before a replacement changes neither the row nor a runner. -/
  stale : ∀ token ∈ state.superseded, call.token = some token →
    (state.next world jobId call).queue.row jobId = state.queue.row jobId ∧
    ∀ taskId process, (call.perform world state.queue jobId).runner = some (taskId, process) →
      ∀ record, world.loadTask taskId = .ok record → record.runner = some process
  /-- A bound child that counts as alive keeps its reservation until it completes. -/
  bound : ∀ r c, state.queue.permit jobId = some r → r.child = some c →
    world.observationCountsAsSlot c = true →
      (∃ r', (state.next world jobId call).queue.permit jobId = some r' ∧ r'.token = r.token ∧
        r'.child = some c) ∨ ∃ taskId, call = .complete taskId r.token c none
  /-- A process that completed its start and counts as alive stays the owner. -/
  owner : ∀ c, state.completed = some c → world.observationCountsAsSlot c = true →
    ∃ row, (state.next world jobId call).queue.row jobId = some row ∧ row.ownerOpt = some c

/-- What every state of a guarded run satisfies. -/
structure PermitState.Inv (state : PermitState) (jobId : JobId) : Prop where
  wellFormed : state.queue.WellFormed
  current : ∀ r, state.queue.permit jobId = some r →
    r.token ∈ state.issued ∧ r.token ∉ state.superseded
  drawn : ∀ token ∈ state.superseded, token ∈ state.issued
  done : ∀ c, state.completed = some c → ∃ row, state.queue.row jobId = some row ∧
    row.slotReservation = none ∧ row.ownerOpt = some c

namespace PermitState
variable {state : PermitState} {world : World} {jobId : JobId} {call : PermitCall}

theorem permit_of_row {queue : QueueSnapshot} {row : QueueEntry}
    (h : queue.row jobId = some row) : queue.permit jobId = row.slotReservation := by
  rw [QueueSnapshot.permit, h]
  rfl

theorem token_after {row row' runner completed}
    (hs : RowStep world state.queue call row row' runner completed) (hf : state.Fresh call) {r'}
    (hr' : row'.slotReservation = some r') :
    (∃ r, row.slotReservation = some r ∧ r.token = r'.token) ∨ r'.token ∉ state.issued := by
  cases hs with
  | kept => exact .inl ⟨r', hr', rfl⟩
  | acquired granted => cases hr'; exact .inr hf
  | released held => cases hr'
  | bound held => cases hr'; exact .inl ⟨_, held, rfl⟩
  | takenOver held kept job => exact .inl ⟨r', kept ▸ hr', rfl⟩
  | publishedChild held permit unbound job =>
    rw [permit] at hr'
    cases hr'
    exact .inl ⟨_, held, rfl⟩
  | completed held unbound owner cleared job => rw [cleared] at hr'; cases hr'
  | confirmed vacant owner written done => exact .inl ⟨r', hr', rfl⟩

section
variable {row row' : QueueEntry} {runner : Option (TaskId × ProcessIdentity)}
  {completed : Option ProcessIdentity}

theorem stale_row (hin : state.Inv jobId) (hg : state.Guarded world jobId call)
    (hro : state.queue.row jobId = some row)
    (hst : RowStep world state.queue call row row' runner completed) {token : Uuid}
    (hs : token ∈ state.superseded) (ht : call.token = some token) :
    row' = row ∧ ∀ taskId process, runner = some (taskId, process) →
      ∀ record, world.loadTask taskId = .ok record → record.runner = some process := by
  -- Every change but the last presents the token that is on the row.
  have hc : ∀ r, row.slotReservation = some r → r.token = token → False := by
    intro r hr he
    exact (hin.current r (permit_of_row hro ▸ hr)).2 (he ▸ hs)
  cases hst with
  | kept => exact ⟨rfl, fun _ _ h => by cases h⟩
  | acquired granted => cases ht
  | released held => cases ht; exact (hc _ held rfl).elim
  | bound held => cases ht; exact (hc _ held rfl).elim
  | takenOver held kept job => cases ht; exact (hc _ held rfl).elim
  | publishedChild held permit unbound job => cases ht; exact (hc _ held rfl).elim
  | completed held unbound owner cleared job => cases ht; exact (hc _ held rfl).elim
  | confirmed vacant owner written done =>
    cases ht
    refine ⟨rfl, fun taskId process hru record hre => ?_⟩
    obtain ⟨rfl, rfl⟩ := Prod.mk.inj (written _ hru)
    exact hg hs row hro vacant owner record hre

variable (hs : RowStep world state.queue call row row' runner completed)
include hs

theorem bound_row (hg : state.Guarded world jobId call) (hro : state.queue.row jobId = some row)
    {r : RunnerSlotReservation} {c : ProcessIdentity} (hr : row.slotReservation = some r)
    (hc : r.child = some c) (hl : world.observationCountsAsSlot c = true) :
    (∃ r', row'.slotReservation = some r' ∧ r'.token = r.token ∧ r'.child = some c) ∨
      ∃ taskId, call = .complete taskId r.token c none := by
  cases hs with
  | kept => exact .inl ⟨r, hr, rfl, hc⟩
  | acquired granted =>
    -- a reservation is only replaced when its child is known to have exited
    unfold reservationRefusal at granted
    simp only [hr, hc] at granted
    have hf := (of_unless granted).1
    simp [hl] at hf
  | released held =>
    rw [hr] at held
    cases held
    cases hc
  | bound held =>
    cases held.symm.trans hr
    rcases hg _ c (permit_of_row hro ▸ hr) rfl hc with rfl | hd
    · exact .inl ⟨_, rfl, rfl, rfl⟩
    · rw [hd] at hl; cases hl
  | takenOver held kept job => exact .inl ⟨r, kept.trans hr, rfl, hc⟩
  | publishedChild held permit unbound job =>
    cases held.symm.trans hr
    exact .inl ⟨_, permit, rfl, congrArg some (unbound c hc).symm⟩
  | @completed taskId _ _ _ _ held unbound owner cleared job =>
    cases held.symm.trans hr
    rw [unbound c hc]
    exact .inr ⟨taskId, rfl⟩
  | confirmed vacant owner written done => rw [vacant] at hr; cases hr

/-- Nothing moves while a process that completed its start counts as alive. -/
theorem completed_row (hin : state.Inv jobId) (hg : state.Guarded world jobId call)
    (hro : state.queue.row jobId = some row)
    {c}
    (hd : state.completed = some c) (hl : world.observationCountsAsSlot c = true) :
    row' = row ∧ row.slotReservation = none ∧ row.ownerOpt = some c := by
  obtain ⟨other, hot, hv, how⟩ := hin.done c hd
  obtain rfl : other = row := Option.mem_unique hot hro
  refine ⟨?_, hv, how⟩
  have hn : ∀ r, other.slotReservation = some r → False := by
    intro r hr
    rw [hv] at hr
    cases hr
  cases hs with
  | kept => rfl
  | acquired granted =>
    -- Without a reservation, any live holder or a full house refuses the slot.
    have hh := hg c hd hl other hro
    simp only [reservationRefusal, hv] at granted
    rw [← row_jobId hro] at hh
    rcases hh with hl | hfo | hfu
    · simp [hl] at granted
    · simp [hfo] at granted
    · rw [if_pos hfu] at granted
      split at granted <;> cases granted
  | released held => exact (hn _ held).elim
  | bound held => exact (hn _ held).elim
  | takenOver held kept job => exact (hn _ held).elim
  | publishedChild held permit unbound job => exact (hn _ held).elim
  | completed held unbound owner cleared job => exact (hn _ held).elim
  | confirmed vacant owner written done => rfl

theorem completing_row {c} (hc : completed = some c) :
    row'.slotReservation = none ∧ row'.ownerOpt = some c := by
  cases hs with
  | completed held unbound owner cleared job => cases hc; exact ⟨cleared, owner⟩
  | confirmed vacant owner written done => exact ⟨vacant, done c hc ▸ owner⟩
  | kept => cases hc
  | acquired granted => cases hc
  | released held => cases hc
  | bound held => cases hc
  | takenOver held kept job => cases hc
  | publishedChild held permit unbound job => cases hc

end

theorem Inv.exclusive (hin : state.Inv jobId) (hg : state.Guarded world jobId call) :
    state.Exclusive world jobId call := by
  have hcu : ∀ a ∈ state.queue.entries, ∀ b ∈ state.queue.entries, a.jobId = jobId →
      b.jobId = jobId → ∀ r r', a.slotReservation = some r → b.slotReservation = some r' →
        r.token = r'.token := by
    intro a ha b hb hja hjb r r' hr hr'
    have hab := hin.wellFormed.row_of_mem ha
    rw [hja, ← hjb, hin.wellFormed.row_of_mem hb, Option.some.injEq] at hab
    rw [hab, hr, Option.some.injEq] at hr'
    rw [hr']
  obtain ⟨-, ⟨hsa, hru, -⟩ | ⟨row, row', hro, hro', hs⟩⟩ :=
    perform_row world jobId hin.wellFormed call
  · have hn : (state.next world jobId call).queue = state.queue := hsa
    refine ⟨hcu, fun token _ _ => ⟨by rw [hn], fun taskId process h => ?_⟩, ?_, ?_⟩
    · rw [hru] at h; cases h
    · intro r c hr hc hl
      exact .inl ⟨r, hn ▸ hr, rfl, hc⟩
    · intro c hd hl
      obtain ⟨row, hro, -, how⟩ := hin.done c hd
      exact ⟨row, hn ▸ hro, how⟩
  · have hn : (state.next world jobId call).queue.row jobId = some row' := hro'
    refine ⟨hcu, fun token hst ht => ?_, ?_, ?_⟩
    · obtain ⟨rfl, hw⟩ := stale_row hin hg hro hs hst ht
      exact ⟨hn.trans hro.symm, hw⟩
    · intro r c hr hc hl
      rw [permit_of_row hro] at hr
      rw [permit_of_row hn]
      exact bound_row hs hg hro hr hc hl
    · intro c hd hl
      obtain ⟨rfl, -, how⟩ := completed_row hs hin hg hro hd hl
      exact ⟨row', hn, how⟩

theorem next_superseded (state : PermitState) (world : World) (jobId : JobId) (call : PermitCall) :
    (state.next world jobId call).superseded = state.superseded ∨
      ((state.next world jobId call).superseded = state.issued ∧
      ∃ r r', state.queue.permit jobId = some r ∧
        (state.next world jobId call).queue.permit jobId = some r' ∧ r.token ≠ r'.token) := by
  unfold PermitState.next
  dsimp only
  split
  · rename_i h
    refine .inr ⟨rfl, ?_⟩
    obtain ⟨hol, hn, hne⟩ := h
    obtain ⟨r, hr⟩ := Option.isSome_iff_exists.mp (by simpa using hol)
    obtain ⟨r', hr'⟩ := Option.isSome_iff_exists.mp (by simpa using hn)
    exact ⟨r, r', hr, hr', fun he => hne (by rw [hr, hr', Option.map_some, Option.map_some, he])⟩
  · exact .inl rfl

theorem next_completed {c} (h : (state.next world jobId call).completed = some c) :
    (call.perform world state.queue jobId).completed = some c ∨
      (state.completed = some c ∧ world.observationCountsAsSlot c = true) := by
  unfold PermitState.next at h
  cases hc : (call.perform world state.queue jobId).completed with
  | some d => exact .inl (by simpa [hc] using h)
  | none => exact .inr (Option.filter_eq_some_iff.mp (by simpa [hc] using h))

theorem Inv.next (hin : state.Inv jobId) (hf : state.Fresh call)
    (hg : state.Guarded world jobId call) : (state.next world jobId call).Inv jobId := by
  obtain ⟨hwf, hou⟩ := perform_row world jobId hin.wellFormed call
  have hto : ∀ r', (state.next world jobId call).queue.permit jobId = some r' →
      (∃ r, state.queue.permit jobId = some r ∧ r.token = r'.token) ∨ r'.token ∉ state.issued := by
    intro r' hr'
    rcases hou with ⟨hsa, -, -⟩ | ⟨row, row', hro, hro', hst⟩
    · exact .inl ⟨r', hsa ▸ hr', rfl⟩
    · rw [permit_of_row hro]
      exact token_after hst hf ((permit_of_row hro').symm.trans hr')
  refine ⟨hwf, fun r' hr' => ⟨?_, ?_⟩, fun token ht => ?_, fun c hc => ?_⟩
  · refine List.mem_append_left _ ?_
    rw [show (call.perform world state.queue jobId).queue.permit jobId = some r' from hr']
    simp
  · rcases next_superseded state world jobId call with
      he | ⟨he, r, s, hr, hs, hne⟩
    · rw [he]
      rcases hto r' hr' with ⟨r, hr, ht⟩ | hnw
      · exact ht ▸ (hin.current r hr).2
      · exact fun hm => hnw (hin.drawn _ hm)
    · -- The reservation was replaced, so the token on the row is the new one.
      obtain rfl : s = r' := Option.mem_unique hs hr'
      rw [he]
      rcases hto s hs with ⟨q, hq, ht⟩ | hnw
      · cases hq.symm.trans hr
        exact (hne ht).elim
      · exact hnw
  · refine List.mem_append_right _ ?_
    rcases next_superseded state world jobId call with he | ⟨he, -⟩
    · exact hin.drawn token (he ▸ ht)
    · exact he ▸ ht
  · rcases hou with ⟨hsa, -, hn⟩ | ⟨row, row', hro, hro', hst⟩
    · rcases next_completed hc with hc | ⟨hc, -⟩
      · rw [hn] at hc; cases hc
      · obtain ⟨row, hro, hre⟩ := hin.done c hc
        exact ⟨row, (congrArg (·.row jobId) hsa).trans hro, hre⟩
    · refine ⟨row', hro', ?_⟩
      rcases next_completed hc with hc | ⟨hc, hl⟩
      · exact completing_row hst hc
      · obtain ⟨rfl, hre⟩ := completed_row hst hin hg hro hc hl
        exact hre

theorem inv_start {queue} (hq : queue.WellFormed) : (PermitState.start jobId queue).Inv jobId where
  wellFormed := hq
  current := fun r hr => by
    have hr : queue.permit jobId = some r := hr
    simp [PermitState.start, hr]
  drawn := fun token ht => by cases ht
  done := fun c hc => by cases hc

end PermitState

/-- **Spawn permits are exclusive in every guarded run.** Starting from any
well-formed queue, whatever calls are made on the row, by whom and with which
view of the processes that are alive: as long as each of them satisfies
`Guarded`, every call keeps the four guarantees of `Exclusive`. -/
theorem permits_exclusive {queue : QueueSnapshot} (hq : queue.WellFormed) {jobId : JobId}
    {state : PermitState}
    (hrun : ReflTransGen (PermitStep jobId) (.start jobId queue) state) {world : World}
    {call : PermitCall} (hguard : state.Guarded world jobId call) :
    state.Exclusive world jobId call := by
  have hin : state.Inv jobId := by
    refine Reach.invariant (p := fun s => s.Inv jobId) ?_ (PermitState.inv_start hq) hrun
    rintro s s' hs ⟨world, call, hf, hguard, rfl⟩
    exact hs.next hf hguard
  exact hin.exclusive hguard

/-! ## Concrete runs -/

def oneTurn : QueueSnapshot := ⟨2, [.sample 1 ⟨21⟩ ⟨1, 1⟩ (.waiting ⟨1, 1⟩) 1 none]⟩

/-- The store around `oneTurn`: one task whose current turn it is. -/
def permitWorld (runner : Option ProcessIdentity) (terminal : Option TurnTerminal)
    (dead : List ProcessIdentity) : World :=
  let task : LocalTaskRecord :=
    { info := ⟨⟨1⟩, none, "", ""⟩, status := ⟨.active, none, none, [⟨⟨21⟩, terminal, none⟩]⟩, runner
      abandonCode := none, submissionIntentTurnId := none, submissionRollbackTurnId := none
      fetchedHead := none, autoContinueIntent := none }
  { World.quiet ⟨7⟩ with
    tasks := [task], occupancyTasks := [task]
    verdict := fun process => if process ∈ dead then .exited else .live }

def newWorld : World := permitWorld none none []

/-- The state after a permit for `oneTurn` and some more calls, each with its view of the store. -/
def oneTurnAfter (calls : List (World × PermitCall)) : PermitState :=
  calls.foldl (fun state call => state.next call.1 ⟨21⟩ call.2)
    ((PermitState.start ⟨21⟩ oneTurn).next newWorld ⟨21⟩ (.reserve ⟨2, 2⟩ 1 false 5))

/-- The first child is bound under all four guarantees. -/
theorem permits_exclusive_bind :
    (oneTurnAfter []).Exclusive newWorld ⟨21⟩ (.bind 5 ⟨3, 3⟩) := by
  refine permits_exclusive (show oneTurn.WellFormed by decide) (.single ⟨newWorld,
    .reserve ⟨2, 2⟩ 1 false 5, ?_, ?_, rfl⟩) ?_
  · show (5 : Uuid) ∉ _
    decide
  · intro c hc
    cases hc
  · intro r c hr _ hc
    have hu : ∀ r ∈ QueueSnapshot.permit (oneTurnAfter []).queue ⟨21⟩, r.child = none := by decide
    rw [hu r hr] at hc
    cases hc

/-- **Three ways around the permit.** A second child is bound over a live one; a
replaced token makes the row's owner the task's runner; and a process that has
completed its start and is alive loses the row once its turn is finished. -/
theorem permits_not_exclusive :
    ¬ (oneTurnAfter [(newWorld, .bind 5 ⟨3, 3⟩)]).Exclusive newWorld ⟨21⟩ (.bind 5 ⟨4, 4⟩) ∧
    ¬ (oneTurnAfter [(permitWorld none none [⟨2, 2⟩], .reserve ⟨6, 6⟩ 1 false 6),
        (permitWorld none none [⟨2, 2⟩], .release 6 ⟨6, 6⟩)]).Exclusive
      (permitWorld none none [⟨2, 2⟩]) ⟨21⟩ (.complete ⟨1⟩ 5 ⟨1, 1⟩ none) ∧
    ¬ (oneTurnAfter [(newWorld, .complete ⟨1⟩ 5 ⟨3, 3⟩ none),
        (permitWorld (some ⟨3, 3⟩) (some .succeeded) [], .reserve ⟨3, 3⟩ 9 false 6)]).Exclusive
      (permitWorld (some ⟨3, 3⟩) (some .succeeded) []) ⟨21⟩ (.complete ⟨1⟩ 6 ⟨4, 4⟩ none) := by
  refine ⟨fun h => ?_, fun h => ?_, fun h => ?_⟩
  · have hr : ∀ r ∈ QueueSnapshot.permit (oneTurnAfter [(newWorld, .bind 5 ⟨3, 3⟩),
        (newWorld, .bind 5 ⟨4, 4⟩)]).queue ⟨21⟩, r.child = some ⟨4, 4⟩ := by decide
    obtain ⟨r', hr', -, hc⟩ | ⟨taskId, hca⟩ :=
      h.bound ⟨⟨2, 2⟩, 5, some ⟨3, 3⟩⟩ ⟨3, 3⟩ (by decide) rfl (by decide)
    · rw [hr r' hr'] at hc
      cases hc
    · cases hca
  · have hru := (h.stale 5 (by decide) rfl).2 ⟨1⟩ ⟨1, 1⟩ (by decide) _ rfl
    cases hru
  · have ht : ∀ row ∈ QueueSnapshot.row (oneTurnAfter
        [(newWorld, .complete ⟨1⟩ 5 ⟨3, 3⟩ none),
          (permitWorld (some ⟨3, 3⟩) (some .succeeded) [], .reserve ⟨3, 3⟩ 9 false 6),
          (permitWorld (some ⟨3, 3⟩) (some .succeeded) [], .complete ⟨1⟩ 6 ⟨4, 4⟩ none)]).queue
        ⟨21⟩, row.ownerOpt = some ⟨4, 4⟩ := by
      decide
    obtain ⟨row, hro, how⟩ := h.owner ⟨3, 3⟩ (by decide) (by decide)
    rw [ht row hro] at how
    cases how

end MacWorker.Queue
