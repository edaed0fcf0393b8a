import MacWorker.Base

/-! # Local task records

The part of a task record that queue admission, spawn permits and the batch
graph read: identity, lifecycle state, turn history and the runner. -/
namespace MacWorker

inductive TaskState where
  | queued
  | active
  | «open»
  | closed
  | abandoned
  | lost
  deriving DecidableEq

inductive TurnTerminal where
  | succeeded
  | failed
  | cancelled
  | timedOut
  | lost
  deriving DecidableEq

inductive TaskOutcome where
  | done
  | needsInput
  | blocked
  | unknown
  | failed (reason : String)
  | cancelled
  | timedOut
  | lost
  deriving DecidableEq

/-- The exit status of a task in the report of its run; zero means nothing went
wrong. -/
def TaskOutcome.aggregate : TaskOutcome → Nat
  | .done | .needsInput => 0
  | .unknown => 70
  | .failed _ => 1
  | .blocked | .cancelled | .timedOut | .lost => 1

/-- A Git object id: 40 lower case hexadecimal digits. -/
structure BaseOid where
  value : String
  canonical : isLowerHex value 40 = true
  deriving DecidableEq

def BaseOid.sample : BaseOid := ⟨"00000000000000000000000000000000000000aa", by decide⟩

structure TurnSummary where
  turnId : TurnId
  terminal : Option TurnTerminal
  outcome : Option TaskOutcome
  deriving DecidableEq

structure TaskMeta where
  taskId : TaskId
  runId : Option Uuid
  (projectId worktreeId : String)
  deriving DecidableEq

structure TaskStatus where
  state : TaskState
  lastOutcome : Option TaskOutcome
  headOid : Option BaseOid
  turns : List TurnSummary
  deriving DecidableEq

structure LocalTaskRecord where
  info : TaskMeta
  status : TaskStatus
  runner : Option ProcessIdentity
  abandonCode : Option String
  (submissionIntentTurnId submissionRollbackTurnId : Option TurnId)
  fetchedHead : Option BaseOid
  /-- The turn of a follow-up that is prepared but not yet queued. -/
  autoContinueIntent : Option TurnId
  deriving DecidableEq

def hexDigits : List Char :=
  ['0', '1', '2', '3', '4', '5', '6', '7', '8', '9', 'a', 'b', 'c', 'd', 'e', 'f']

/-- The 32 lower case hexadecimal digits of a UUID, most significant first. -/
def simple (uuid : Uuid) : String :=
  String.ofList <| (List.range 32).map fun i =>
    hexDigits.getD (uuid.toNat / 16 ^ (31 - i) % 16) '0'

end MacWorker
