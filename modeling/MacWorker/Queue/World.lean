import MacWorker.Task
import MacWorker.Queue.Snapshot

/-! # What admission reads beside the queue

The queue lock is held while a decision is made, so one `World` describes
everything a single call sees: task records and their turn directories, job
records, cached worker observations, and the liveness verdicts. Different
calls may see different worlds. -/
namespace MacWorker.Queue
open Fallible MacWorker.Scheduler

inductive RunnerLivenessVerdict where
  | live
  | exited
  | unverifiable
  deriving DecidableEq

inductive JobState where
  | uploading
  | verified
  | accepted
  | running
  | succeeded
  | failed
  | cancelled
  | timedOut
  | lost
  deriving DecidableEq

structure LocalJobRecord where
  jobId : JobId
  clientId : ClientId
  (workerName projectId worktreeId : String)
  commandSummary : CommandSummary
  lastState : Option JobState

structure AdmissionObservation where
  capabilities : List String
  agentVersions : List (String × String)
  (factsAgeMillis finalProbeStartedAtMillis : Option Nat)

def factsTtl : Nat := 15 * 60 * 1000

def AdmissionObservation.factsFreshAt (observation : AdmissionObservation) (nowMillis : Nat) :
    Bool :=
  match observation.factsAgeMillis, observation.finalProbeStartedAtMillis with
  | some age, some started =>
    decide (started ≤ nowMillis) &&
      decide (min (age + (nowMillis - started)) (2 ^ 64 - 1) ≤ factsTtl)
  | _, _ => false

/-- Everything one locked call reads. A read that the source can refuse on its
own account (a foreign project context, an unreadable prompt) is fallible. -/
structure World where
  clientId : ClientId
  /-- Every task record, by file name. -/
  tasks : List LocalTaskRecord
  /-- The records that count towards occupancy: the active index when it exists. -/
  occupancyTasks : List LocalTaskRecord
  turnIds : TaskId → List TurnId
  job : JobId → Option LocalJobRecord
  observation : String → Option AdmissionObservation
  affinity : (projectId worktreeId : String) → Except WorkerError AffinityHints
  verdict : ProcessIdentity → RunnerLivenessVerdict
  /-- Whether the prompt of a turn exists. -/
  prompt : TaskId → TurnId → Except WorkerError Bool
  projectPath : LocalTaskRecord → Except WorkerError (Option String)

namespace World

variable (world : World)

def ownerIsLiveOrAmbiguous (rowOwner caller : ProcessIdentity) : Bool :=
  rowOwner == caller || world.verdict rowOwner != .exited

def requireLocalClient (record : LocalJobRecord) : Except WorkerError Unit :=
  ensure (record.clientId = world.clientId)
    (.protocol "CLIENT_ID_MISMATCH: local job belongs to another client identity")

def loadTask (taskId : TaskId) : Except WorkerError LocalTaskRecord :=
  match world.tasks.find? (·.info.taskId == taskId) with
  | some record => .ok record
  | none => .error .notFound

/-- A process keeps what it holds until it is known to have exited. -/
def observationCountsAsSlot (identity : ProcessIdentity) : Bool :=
  world.verdict identity != .exited

def turnInsertions : List (TurnId × TaskId) :=
  world.occupancyTasks.flatMap fun task =>
    (world.turnIds task.info.taskId ++ task.status.turns.map (·.turnId)).map
      fun turn => (turn, task.info.taskId)

/-- A later insertion replaces an earlier one. -/
def turnToTask (turn : TurnId) : Option TaskId :=
  world.turnInsertions.reverse.lookup turn

/-- A store without tasks, jobs or observations, in which every process is alive. -/
def quiet (clientId : ClientId) : World where
  clientId := clientId
  tasks := []
  occupancyTasks := []
  turnIds := fun _ => []
  job := fun _ => none
  observation := fun _ => none
  affinity := fun _ _ => .ok ⟨none, none⟩
  verdict := fun _ => .live
  prompt := fun _ _ => .ok true
  projectPath := fun _ => .ok none

end World

def localRecordMatchesQueueEntry (entry : QueueEntry) (record : LocalJobRecord) : Bool :=
  let workerMatches := match entry.state, entry.preference with
    | .dispatching _ selectedWorker _, _ => record.workerName == selectedWorker
    | _, .automatic => true
    | _, .pinned worker => record.workerName == worker
  record.jobId == entry.jobId && record.clientId == entry.clientId && workerMatches &&
    record.projectId == entry.projectId && record.worktreeId == entry.worktreeId &&
    record.commandSummary == entry.commandSummary

/-- The capabilities and agent versions a claim at `nowMillis` may rely on. -/
def World.workerFacts (world : World) (worker : String) (nowMillis : Nat) :
    Option (List String) × List (String × String) :=
  let observation := world.observation worker
  (observation.map (·.capabilities),
    match observation.filter (·.factsFreshAt nowMillis) with
    | some fresh => fresh.agentVersions
    | none => [])

end MacWorker.Queue
