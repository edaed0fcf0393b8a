import MacWorker.Lib.Base64
import MacWorker.Lib.Durable
import MacWorker.Lib.Json
import MacWorker.Task

/-! # The runner log

The log of a turn is an append-only file; beside it stands a checkpoint, the journal, that
says how much of the file is committed. An append publishes its intent in the journal (the
payload and the commit that is to follow), writes the payload, and publishes the commit.
Opening the log repeats what an interrupted append left to do.

The checkpoint file, and the text that the writer expects to find there, are represented
by the journal they serialise. A call can stop after any of its writes: to the files, and
to the writer in memory. The state also carries the payloads of all intents that became
durable, oldest first. -/
namespace MacWorker.RunnerLog
open Durable Fallible Json
open Prog (require fail)

inductive LogError where
  | worker (error : WorkerError)
  | io
  deriving DecidableEq

def invalid : LogError :=
  .worker (.task "LOG_CHECKPOINT_INVALID" "runner log checkpoint is inconsistent")

def sidecarLimit : Nat := 128 * 1024

def chunkLimit : Nat := 64 * 1024

def maxLogChunkBytes : Nat := 64 * 1024

inductive LogStream where
  | stdout
  | stderr

structure Completion where
  outcome : TaskOutcome
  drained : Bool
  deriving DecidableEq

structure AcceptedTurnAssignment where
  worker : String
  jobId : JobId
  deriving DecidableEq

structure Offsets where
  (stdout stderr : Nat)
  deriving DecidableEq

def Offsets.get (offsets : Offsets) : LogStream → Nat
  | .stdout => offsets.stdout
  | .stderr => offsets.stderr

def Offsets.set (offsets : Offsets) (stream : LogStream) (value : Nat) : Offsets :=
  match stream with
  | .stdout => { offsets with stdout := value }
  | .stderr => { offsets with stderr := value }

structure Commit where
  offsets : Offsets
  len : Nat
  accepted : Bool
  assignment : Option AcceptedTurnAssignment
  completion : Option Completion
  deriving DecidableEq

def Commit.initial : Commit where
  offsets := ⟨0, 0⟩
  len := 0
  accepted := false
  assignment := none
  completion := none

structure Pending where
  payload : String
  next : Commit
  deriving DecidableEq

structure Journal where
  version : Nat
  taskId : TaskId
  turnId : TurnId
  committed : Commit
  pending : Option Pending
  deriving DecidableEq

/-! ## The text of the checkpoint -/

def outcomeJson : TaskOutcome → Value
  | .done => .obj [("kind", .str "done")]
  | .needsInput => .obj [("kind", .str "needs_input")]
  | .blocked => .obj [("kind", .str "blocked")]
  | .unknown => .obj [("kind", .str "unknown")]
  | .failed reason => .obj [("kind", .str "failed"), ("reason", .str reason)]
  | .cancelled => .obj [("kind", .str "cancelled")]
  | .timedOut => .obj [("kind", .str "timed_out")]
  | .lost => .obj [("kind", .str "lost")]

def Completion.toJson (completion : Completion) : Value :=
  .obj [("outcome", outcomeJson completion.outcome), ("drained", .bool completion.drained)]

def AcceptedTurnAssignment.toJson (assignment : AcceptedTurnAssignment) : Value :=
  .obj [("worker", .str assignment.worker), ("job_id", .str (simple assignment.jobId.uuid))]

def Commit.toJson (commit : Commit) : Value :=
  .obj ([("offsets", .arr [.num (.ofNat commit.offsets.stdout),
    .num (.ofNat commit.offsets.stderr)]),
    ("len", .num (.ofNat commit.len)), ("accepted", .bool commit.accepted)] ++
    ((commit.assignment.map fun assignment => ("assignment", assignment.toJson)).toList ++
    [("completion", (commit.completion.map Completion.toJson).getD .null)]))

def Pending.toJson (pending : Pending) : Value :=
  .obj [("payload", .str pending.payload), ("next", pending.next.toJson)]

variable (taskId : TaskId) (turnId : TurnId) (journal : Journal)

def Journal.toJson : Value :=
  .obj [("version", .num (.ofNat journal.version)), ("task_id", .str (simple journal.taskId.uuid)),
    ("turn_id", .str (simple journal.turnId.uuid)), ("committed", journal.committed.toJson),
    ("pending", (journal.pending.map Pending.toJson).getD .null)]

/-! ## Checks on a journal -/

def isUndrainableOutcome : TaskOutcome → Bool
  | .failed reason => reason == "LOG_DRAIN_UNAVAILABLE"
  | _ => false

/-- A turn that was never accepted finishes with an empty log, unless what is left of
it cannot be drained. -/
def completionIsValid (accepted : Bool) (offsets : Offsets) (completion : Completion) : Bool :=
  if completion.drained then accepted
  else if isUndrainableOutcome completion.outcome then true
  else !accepted && offsets == ⟨0, 0⟩

def AcceptedTurnAssignment.validateFor (assignment : AcceptedTurnAssignment) (turnId : JobId) :
    Except WorkerError Unit := do
  validateWorkerName assignment.worker
  ensure (assignment.jobId = turnId) (.protocol "accepted assignment differs from journal turn")

def AcceptedTurnAssignment.new (worker : String) (jobId : JobId) :
    Except WorkerError AcceptedTurnAssignment := do
  validateWorkerName worker
  return ⟨worker, jobId⟩

def validateAssignment (commit : Commit) (turnId : TurnId) : Except LogError Unit :=
  checkSome commit.assignment fun assignment => do
    ensure (commit.accepted = true) invalid
    (assignment.validateFor turnId).mapError fun _ => invalid

def u64Limit : Nat := 2 ^ 64

/-- By how much the offsets grow, if none of them shrinks. -/
def offsetDelta (before after : Offsets) : Option Nat :=
  if before.stdout ≤ after.stdout ∧ before.stderr ≤ after.stderr ∧
      (after.stdout - before.stdout) + (after.stderr - before.stderr) < u64Limit then
    some ((after.stdout - before.stdout) + (after.stderr - before.stderr))
  else none

/-- An intent continues the commit it stands on. -/
def checkPending (committed : Commit) (turnId : TurnId) (pending : Pending) :
    Except LogError Unit := do
  validateAssignment pending.next turnId
  match Base64.decode pending.payload with
  | none => .error invalid
  | some bytes =>
    ensure (bytes.length ≤ chunkLimit ∧ committed.completion = none ∧
      committed.len + bytes.length < u64Limit ∧ committed.len + bytes.length = pending.next.len ∧
      (committed.accepted = true → pending.next.accepted = true) ∧
      (committed.assignment ≠ none → committed.assignment = pending.next.assignment)) invalid
    match offsetDelta committed.offsets pending.next.offsets with
    | none => .error invalid
    | some delta =>
      ensure (delta = 0 ∨ delta = bytes.length ∧
        (pending.next.offsets.stdout = committed.offsets.stdout ∨
          pending.next.offsets.stderr = committed.offsets.stderr) ∧
        pending.next.accepted = committed.accepted ∧
        pending.next.completion = committed.completion) invalid
      checkSome pending.next.completion fun completion =>
        ensure (completionIsValid pending.next.accepted pending.next.offsets completion = true)
          invalid

def decode : Except LogError Unit := do
  ensure (textLen journal.toJson ≤ sidecarLimit) invalid
  ensure (journal.version = 1 ∧ journal.taskId = taskId ∧ journal.turnId = turnId) invalid
  validateAssignment journal.committed turnId
  ensure (journal.committed.offsets.stdout + journal.committed.offsets.stderr < u64Limit ∧
    journal.committed.offsets.stdout + journal.committed.offsets.stderr ≤ journal.committed.len)
    invalid
  checkSome journal.committed.completion fun completion =>
    ensure (completionIsValid journal.committed.accepted journal.committed.offsets completion =
      true)
      invalid
  checkSome journal.pending (checkPending journal.committed turnId)

/-! ## The writer -/

structure Writer where
  journal : Journal
  poisoned : Bool

/-- The files of one turn, the writer that holds the lock on the log, and the payloads
whose intent became durable. -/
structure State where
  log : Option (List UInt8)
  sidecar : Option Journal
  writer : Option Writer
  intents : List (List UInt8)

def State.empty : State := ⟨none, none, none, []⟩

abbrev LogM := Prog LogError State

def self : LogM Writer := do
  match (← Prog.get).writer with
  | none => fail .io
  | some writer => return writer

def logLength : LogM Nat := do
  match (← Prog.get).log with
  | none => fail .io
  | some log => return log.length

/-- Read at most `limit` bytes of the log from `offset` on. -/
def readChunk (offset limit : Nat) : LogM (List UInt8) := do
  match (← Prog.get).log with
  | none => fail .io
  | some log =>
    require (offset ≤ log.length) .io
    return (log.drop offset).take (min limit maxLogChunkBytes)

def setWriter (writer : Writer) : LogM Unit :=
  Prog.write fun s => { s with writer := some writer }

/-- The bytes of the intent in a journal, if it has one. -/
def Journal.intent : List (List UInt8) :=
  (journal.pending.bind fun pending => Base64.decode pending.payload).toList

def Journal.withIntent (bytes : List UInt8) (next : Commit) : Journal :=
  { journal with pending := some { payload := Base64.encode bytes, next } }

def Journal.withCommit (next : Commit) : Journal :=
  { journal with committed := next, pending := none }

/-- Replace the checkpoint, which has to be the one the writer knows. -/
def publish : LogM Unit := do
  require (textLen journal.toJson ≤ sidecarLimit) invalid
  let writer ← self
  setWriter { writer with poisoned := true }
  require ((← Prog.get).sidecar = some writer.journal) .io
  Prog.write fun s => { s with sidecar := some journal, intents := s.intents ++ journal.intent }
  setWriter ⟨journal, false⟩

/-- Append bytes to the file; every part of them can be all that is written. -/
def writeAll : List UInt8 → LogM Unit
  | [] => return
  | byte :: bytes => do
    Prog.write fun s => { s with log := s.log.map (· ++ [byte]) }
    writeAll bytes

/-- Do what the pending append left to do. -/
def recover : LogM Unit := do
  let writer ← self
  let n ← logLength
  let committed := writer.journal.committed.len
  match writer.journal.pending with
  | none => require (n = committed) invalid
  | some pending =>
    match Base64.decode pending.payload with
    | none => fail invalid
    | some bytes =>
      require (committed + bytes.length < u64Limit) invalid
      require (committed ≤ n ∧ n ≤ committed + bytes.length) invalid
      let written := n - committed
      require ((← readChunk committed written) = bytes.take written) invalid
      setWriter { writer with poisoned := true }
      writeAll (bytes.drop written)
      require ((← logLength) = committed + bytes.length) invalid
      publish (writer.journal.withCommit pending.next)

def append (bytes : List UInt8) (next : Commit) : LogM Unit := do
  let writer ← self
  require (writer.poisoned = false ∧ writer.journal.pending = none ∧
    writer.journal.committed.completion = none ∧ bytes.length ≤ chunkLimit) invalid
  require ((← logLength) = writer.journal.committed.len) invalid
  let len := writer.journal.committed.len + bytes.length
  require (len < u64Limit) invalid
  publish (writer.journal.withIntent bytes { next with len })
  recover

/-- Append one piece after the other, each with the commit it finds. -/
def appendPieces : List (List UInt8) → LogM Unit
  | [] => return
  | piece :: pieces => do
    append piece (← self).journal.committed
    appendPieces pieces

def appendBytes (bytes : List UInt8) : LogM Unit := appendPieces (bytes.toChunks chunkLimit)

structure LogChunk where
  stream : LogStream
  (offset nextOffset : Nat)
  data : String

def LogChunk.decodedBytes (chunk : LogChunk) : Except WorkerError (List UInt8) :=
  match Base64.decode chunk.data with
  | none => .error (.protocol "log chunk data is not base64")
  | some bytes => do
    ensure (bytes.length > maxLogChunkBytes ∨ chunk.offset + bytes.length < u64Limit)
      (.protocol "log offset overflow")
    ensure (bytes.length ≤ maxLogChunkBytes ∧ chunk.nextOffset = chunk.offset + bytes.length)
      (.protocol "log chunk offsets do not match decoded bytes")
    return bytes

def appendChunk (chunk : LogChunk) : LogM Unit := do
  let bytes ← chunk.decodedBytes.mapError LogError.worker
  let committed := (← self).journal.committed
  require (chunk.offset = committed.offsets.get chunk.stream) invalid
  if bytes = [] then return
  append bytes { committed with offsets := committed.offsets.set chunk.stream chunk.nextOffset }

def accepted (worker : String) (bytes : List UInt8) : LogM Bool := do
  let journal := (← self).journal
  let assignment ← (AcceptedTurnAssignment.new worker journal.turnId).mapError LogError.worker
  if journal.committed.accepted = true then
    require (∀ current ∈ journal.committed.assignment, current = assignment) invalid
    return false
  else
    append bytes { journal.committed with accepted := true, assignment := some assignment }
    return true

/-- What the record of a task says about its last turn and the worker that has it. -/
structure WorkerProjection where
  taskId : TaskId
  lastTurn : Option TurnId
  worker : Option String

/-- Complete the checkpoint of a turn that was accepted before assignments were kept. -/
def acceptedAssignment (record : WorkerProjection) : LogM (Option AcceptedTurnAssignment) := do
  let journal := (← self).journal
  if journal.committed.accepted = false then return none
  match journal.committed.assignment with
  | some assignment => return some assignment
  | none =>
    require (record.taskId = journal.taskId ∧ record.lastTurn = some journal.turnId) invalid
    match record.worker with
    | none => fail (.worker (.task "TASK_ACCEPTED_ASSIGNMENT_MISSING"
        "accepted turn has no proven worker assignment"))
    | some worker =>
      let assignment ← (AcceptedTurnAssignment.new worker journal.turnId).mapError LogError.worker
      append [] { journal.committed with assignment := some assignment }
      return some assignment

def finish (completion : Completion) (bytes : List UInt8) : LogM Bool := do
  let committed := (← self).journal.committed
  match committed.completion with
  | some current =>
    require (current = completion) invalid
    return false
  | none =>
    require (completionIsValid committed.accepted committed.offsets completion = true) invalid
    append bytes { committed with completion := some completion }
    return true

/-- The line that ends the log of a turn, its members in the order of their names. -/
def turnTerminalBytes (outcome : TaskOutcome) : List UInt8 :=
  bytes (String.ofList (render (.obj [("outcome", outcomeJson outcome),
    ("protocol_version", .num (.ofNat 7)), ("task_id", .str (simple taskId.uuid)),
    ("turn_id", .str (simple turnId.uuid)), ("type", .str "turn_terminal")]) ++ ['\n']))

def finishLocal (outcome : TaskOutcome) : LogM Unit := do
  let _ ← finish { outcome, drained := false } (turnTerminalBytes taskId turnId outcome)

def Journal.initial : Journal where
  version := 1
  taskId := taskId
  turnId := turnId
  committed := .initial
  pending := none

def ensureLog : LogM Unit := do
  if (← Prog.get).log = none then
    require ((← Prog.get).sidecar = none) invalid
    Prog.write fun s => { s with log := some [] }

def ensureSidecar : LogM Unit := do
  let len ← logLength
  if (← Prog.get).sidecar = none then
    require (len = 0) (.worker (.task "LOG_CHECKPOINT_MISSING"
      "nonempty legacy log has no native offsets"))
    Prog.write fun s => { s with sidecar := some (.initial taskId turnId) }

/-- Open the log of a turn, or create it, and recover it. -/
def openLog : LogM Unit := do
  ensureLog
  -- the lock on the log
  require ((← Prog.get).writer = none) .io
  ensureSidecar taskId turnId
  match (← Prog.get).sidecar with
  | none => fail .io
  | some journal =>
    decode taskId turnId journal
    setWriter ⟨journal, false⟩
    match ← recover.attempt with
    | .ok () => return
    | .error error =>
      Prog.write fun s => { s with writer := none }
      fail error

/-! ## Readers -/

structure Snapshot where
  len : Nat
  completion : Option Completion
  accepted : Bool

def snapshot (s : State) : Except LogError (Option Snapshot) :=
  match s.sidecar with
  | none => .ok none
  | some journal => do
    decode taskId turnId journal
    return some {
      len := journal.committed.len
      completion := journal.committed.completion
      accepted := journal.committed.accepted ||
        (journal.pending.any fun pending => pending.next.accepted) }

/-- Read the committed part of the log in pieces. `fuel` bounds the number of pieces. -/
def readFrom (log : List UInt8) (len : Nat) : Nat → Nat → Except LogError (List UInt8)
  | 0, _ => .error .io
  | fuel + 1, offset =>
    if offset < len then do
      let limit := min (len - offset) chunkLimit
      ensure (offset ≤ log.length) .io
      let chunk := (log.drop offset).take limit
      ensure (chunk.length = limit) invalid
      return chunk ++ (← readFrom log len fuel (offset + limit))
    else return []

def readCommitted (snapshot : Snapshot) (s : State) : Except LogError (List UInt8) :=
  match s.log with
  | none => .error .io
  | some log => readFrom log snapshot.len (snapshot.len + 1) 0

end MacWorker.RunnerLog
