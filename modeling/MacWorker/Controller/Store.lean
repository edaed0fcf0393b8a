import MacWorker.Controller.Protocol
import MacWorker.Lib.Durable
import Mathlib.Data.List.AList

/-! # The controller request store

One row for each request id, a pending receipt in the active index while the request is
not settled, and the cursor of the tick. `handleWith` persists or resumes one request;
`resumeActiveBounded` is one tick over the active index. Both drive a row to its
acknowledgement in durable steps: result, ACK, receipt.

A row is represented by the record it serialises. What a later reader makes of the stored
text is `readRecord`: it bounds the text and its nesting, and reads a number as whatever
its text stands for. The calls of one request are serialised by its lock, so every call is
one program over the store, which also carries the history of the executor's invocations. -/
namespace MacWorker.Controller
open Durable Fallible Json

inductive ControllerError where
  | worker (error : WorkerError)
  | capacity (code message : String) (isPublic : Bool)
  | io
  | resumable (error : ControllerError)

def protocolError (message : String) : ControllerError := .worker (.protocol message)

def invalidStored (message : String) : ControllerError :=
  protocolError ("CONTROLLER_TRANSPORT: " ++ message)

def conflict : ControllerError :=
  protocolError "CONTROLLER_REQUEST_CONFLICT: request_id is bound to a different payload"

inductive RequestPhase where
  | published
  | acked
  deriving DecidableEq

/-- The identity a handler freezes before any effect. -/
structure OperationMeta where
  (taskId turnId : Option String)
  createdAtMillis : Nat
  prepared : Value

structure DurableRequest where
  protocolVersion : Nat
  requestId : RequestId
  command : String
  body : Value
  payloadSha256 : String
  createdAtMillis : Nat
  (taskId turnId : Option String)
  phase : RequestPhase
  prepared : Value
  result : Option Value
  deriving DecidableEq

structure ControllerAck where
  protocolVersion : Nat
  status : String
  requestId : RequestId
  payloadSha256 : String
  (taskId turnId : Option String)
  createdAtMillis : Nat
  result : Option Value

structure PendingReceipt where
  requestId : RequestId
  payloadSha256 : String
  command : String
  createdAtMillis : Nat

structure Execution where
  record : DurableRequest
  answer : Except ControllerError Value

/-- The files of the store, and the invocations so far. The cursor file may be
missing, hold a key, or hold something that is not a cursor. -/
structure Store where
  rows : AList fun _ : RequestId => DurableRequest
  active : AList fun _ : String => PendingReceipt
  cursor : Option (Option String)
  executed : List Execution

def Store.empty : Store := ⟨∅, ∅, none, []⟩

abbrev StoreM := Prog ControllerError Store

/-- The answers of a command handler. An invocation is told apart from an earlier one
for the same record in the same call by its number. -/
structure CommandHandler where
  prepare : ControllerRequest → Except ControllerError OperationMeta
  execute : Nat → DurableRequest → Except ControllerError Value

/-! ## Stored text -/

def maxStoredRequestBytes : Nat := 1024 * 1024 + 8192

def optionalMember (name : String) (value : Option Value) : List (String × Value) :=
  (value.map fun v => (name, v)).toList

def RequestPhase.text : RequestPhase → String
  | .published => "published"
  | .acked => "acked"

/-- The members of a row in the order of its declaration. -/
def DurableRequest.toJson (record : DurableRequest) : Value :=
  .obj ([("protocol_version", .num (.ofNat record.protocolVersion)),
    ("request_id", .str record.requestId.text), ("command", .str record.command),
    ("body", record.body), ("payload_sha256", .str record.payloadSha256),
    ("created_at_millis", .num (.ofNat record.createdAtMillis))] ++
    (optionalMember "task_id" (record.taskId.map .str) ++
    (optionalMember "turn_id" (record.turnId.map .str) ++
    ([("phase", .str record.phase.text), ("prepared", record.prepared)] ++
    optionalMember "result" record.result))))

def PendingReceipt.toJson (receipt : PendingReceipt) : Value :=
  .obj [("request_id", .str receipt.requestId.text),
    ("payload_sha256", .str receipt.payloadSha256), ("command", .str receipt.command),
    ("created_at_millis", .num (.ofNat receipt.createdAtMillis))]

def ensureStoredSize (value : Value) : Except ControllerError Unit :=
  ensure (textLen value ≤ maxStoredRequestBytes)
    (invalidStored "durable controller request exceeds the stored size limit")

/-- The reader opens 127 nested containers, one of them the row itself. -/
def valueDepth : Nat := 126

section
variable (codec : Codec) (record : DurableRequest) (request : ControllerRequest)
  (handler : CommandHandler) (id : RequestId) (row : DurableRequest)

/-- What the JSON reader makes of the text of a row. -/
def DurableRequest.reparse : Option DurableRequest := do
  let body ← reread codec.number valueDepth record.body
  let prepared ← reread codec.number valueDepth record.prepared
  let result ← record.result.mapM (reread codec.number valueDepth)
  return { record with body, prepared, result }

def validateRecord (record : DurableRequest) : Except ControllerError Unit := do
  ensure (record.protocolVersion = protocolVersion)
    (protocolError "INCOMPATIBLE_PROTOCOL: durable controller request requires protocol 7")
  ensure (record.requestId = id) (invalidStored "durable request_id does not match its filename")
  checkSome record.taskId fun text => ensure (isLowerHex text 32 = true)
    (invalidStored "durable task_id is invalid")
  checkSome record.turnId fun text => ensure (isLowerHex text 32 = true)
    (invalidStored "durable turn_id is invalid")
  ensure (kind record.body = kind (.obj []))
    (invalidStored "durable request body must be a JSON object")
  ensure (canonicalRequestSha256 codec.sha256 record.protocolVersion record.command record.body =
      record.payloadSha256)
    (invalidStored "durable request digest does not match command and body")

def readRecord : Except ControllerError DurableRequest := do
  ensureStoredSize row.toJson
  match row.reparse codec with
  | some record =>
    validateRecord codec id record
    return record
  | none => .error (invalidStored "durable request is invalid")

def loadLocked : StoreM (Option DurableRequest) := do
  match (← Prog.get).rows.lookup id with
  | none => return none
  | some row => return some (← readRecord codec id row)

def readRow : StoreM DurableRequest := do
  match (← Prog.get).rows.lookup id with
  | none => Prog.fail .io
  | some row => readRecord codec id row

/-! ## Identity checks -/

def checkReplayByParts (existingId : RequestId) (existingDigest existingCommand : String)
    (requestId : RequestId) (requestDigest requestCommand : String) :
    Except ControllerError Unit := do
  ensure (existingId = requestId) (invalidStored "durable request_id does not match its filename")
  ensure (existingDigest = requestDigest ∧ existingCommand = requestCommand) conflict

def checkReplay (existing : DurableRequest) (request : ControllerRequest) :
    Except ControllerError Unit :=
  checkReplayByParts existing.requestId existing.payloadSha256 existing.command
    request.requestId (request.payloadSha256 codec.sha256) request.command

def checkRowAgainstReceipt (receipt : PendingReceipt) : Except ControllerError Unit :=
  checkReplayByParts record.requestId record.payloadSha256 record.command
    receipt.requestId receipt.payloadSha256 receipt.command

/-! ## Rejections

A definitive rejection is saved as a result under a reserved member. -/

def rejectionKey : String := "controller_rejection"

def invalidRejection : ControllerError := invalidStored "saved controller rejection is invalid"

def terminalRejectionCode (command : String) : ControllerError → Option String
  | .worker (.task code _) =>
    if command ∈ ["task.say", "task.cancel", "task.close"] ∧ code = "TASK_REVISION_CONFLICT" then
      some "TASK_REVISION_CONFLICT"
    else none
  | .capacity code _ true =>
    if command = "task.submit" ∧ code ∈ ["CAPACITY_BUSY", "CAPABILITY_MISSING"] then some code
    else none
  | _ => none

def rejectionResult (code message : String) : Value :=
  .obj [(rejectionKey, .obj [("version", .num (.ofNat 1)), ("code", .str code),
    ("message", .str message)])]

/-- What is saved for a definitive rejection. The message of a mutation conflict is a
literal of the command. -/
def savedAnswer (command : String) (error : ControllerError) : Value :=
  match command with
  | "task.say" => rejectionResult "TASK_REVISION_CONFLICT" "task changed before follow-up"
  | "task.cancel" => rejectionResult "TASK_REVISION_CONFLICT" "task changed before cancel"
  | "task.close" => rejectionResult "TASK_REVISION_CONFLICT" "task changed before close"
  | _ =>
    match error with
    | .capacity code message _ => rejectionResult code message
    | _ => rejectionResult "" ""

def knownRejection (code message : String) : Except ControllerError ControllerError :=
  if code = "TASK_REVISION_CONFLICT" ∧ message ∈ ["task changed before close",
      "task changed before follow-up", "task changed before cancel"] ∨
      code = "TASK_CLOSED" ∧ message = "task is terminal" ∨
      code = "INTEGRATION_ALREADY_COMMITTED" ∧ message = "integration contract rejected" then
    .ok (.worker (.task code message))
  else if code = "CAPACITY_BUSY" ∨ code = "CAPABILITY_MISSING" then
    .ok (.capacity code message true)
  else .error invalidRejection

def savedRejection (result : Option Value) : Except ControllerError (Option ControllerError) :=
  match result.bind fun value => value.get rejectionKey with
  | none => .ok none
  | some (.obj fields) => do
    let rejection := Value.obj fields
    ensure (fields.length = 3) invalidRejection
    ensure ((rejection.get "version").bind Value.asU64 = some 1) invalidRejection
    match rejection.get "code", rejection.get "message" with
    | some (.str code), some (.str message) =>
      ensure (message ≠ "") invalidRejection
      return some (← knownRejection code message)
    | _, _ => .error invalidRejection
  | some _ => .error invalidRejection

def ackFrom : ControllerAck where
  protocolVersion := record.protocolVersion
  status := record.phase.text
  requestId := record.requestId
  payloadSha256 := record.payloadSha256
  taskId := record.taskId
  turnId := record.turnId
  createdAtMillis := record.createdAtMillis
  result := record.result

def settled : Except ControllerError ControllerAck := do
  match ← savedRejection record.result with
  | some error => .error error
  | none => return ackFrom record

/-! ## Pending receipts -/

def activeFileName : String := id.text ++ ".json"

def activeRequestId (name : String) : Except ControllerError RequestId :=
  if ".json".toList.isSuffixOf name.toList then
    (validateRequestId (String.ofList (name.toList.take (name.toList.length - 5)))).mapError .worker
  else .error (invalidStored "pending receipt name is invalid")

/-- Create a receipt; an existing one is not replaced. -/
def writePendingReceipt (receipt : PendingReceipt) : StoreM Unit := do
  ensureStoredSize receipt.toJson
  Prog.require ((← Prog.get).active.lookup (activeFileName receipt.requestId) = none) .io
  Prog.write fun s =>
    { s with active := s.active.insert (activeFileName receipt.requestId) receipt }

def readPending (name : String) : StoreM PendingReceipt := do
  match (← Prog.get).active.lookup name with
  | none => Prog.fail .io
  | some receipt =>
    ensureStoredSize receipt.toJson
    Prog.require (activeFileName receipt.requestId = name)
      (invalidStored "pending receipt id does not match its filename")
    return receipt

def ensurePendingReceipt (now : Nat) : StoreM Unit := do
  let receipt : PendingReceipt := {
    requestId := request.requestId
    payloadSha256 := request.payloadSha256 codec.sha256
    command := request.command
    createdAtMillis := now }
  match ← (writePendingReceipt receipt).attempt with
  | .ok () => return
  | .error error =>
    match ← (readPending (activeFileName request.requestId)).attempt with
    | .error _ => Prog.fail error
    | .ok existing =>
      checkReplayByParts existing.requestId existing.payloadSha256 existing.command
        request.requestId (request.payloadSha256 codec.sha256) request.command

/-- Remove the receipt; one that is already gone counts as removed. -/
def retireReceipt : StoreM Unit := do
  if (← Prog.get).active.lookup (activeFileName id) = none then return
  Prog.write fun s => { s with active := s.active.erase (activeFileName id) }

/-! ## Rows -/

def publishedRecord (opMeta : OperationMeta) : DurableRequest where
  protocolVersion := protocolVersion
  requestId := request.requestId
  command := request.command
  body := request.body
  payloadSha256 := request.payloadSha256 codec.sha256
  createdAtMillis := opMeta.createdAtMillis
  taskId := opMeta.taskId
  turnId := opMeta.turnId
  phase := .published
  prepared := opMeta.prepared
  result := none

def putRow : StoreM Unit :=
  Prog.write fun s => { s with rows := s.rows.insert row.requestId row }

def publishWith (opMeta : OperationMeta) : StoreM DurableRequest := do
  let record := publishedRecord codec request opMeta
  ensureStoredSize record.toJson
  match (← Prog.get).rows.lookup request.requestId with
  | none =>
    putRow record
    return record
  | some row =>
    let existing ← readRecord codec request.requestId row
    checkReplay codec existing request
    return existing

/-- Replace a row whose stored text is exactly the expected one. -/
def replaceExact (expected next : DurableRequest) : StoreM Bool := do
  match (← Prog.get).rows.lookup expected.requestId with
  | none => Prog.fail .io
  | some row =>
    if row = expected then
      putRow next
      return true
    else return false

def invoke (attempt : Nat) (record : DurableRequest) : StoreM (Except ControllerError Value) := do
  let answer := handler.execute attempt record
  Prog.write fun s => { s with executed := s.executed ++ [⟨record, answer⟩] }
  return answer

/-- The value to save for an executor's answer, if it is to be saved. -/
def resultToSave (command : String) :
    Except ControllerError Value → Except ControllerError Value
  | .ok value => .ok value
  | .error error =>
    if (terminalRejectionCode command error).isSome then .ok (savedAnswer command error)
    else .error error

/-- Exchange a row for its next version if that can be stored; false after a lost
exchange. -/
def exchange (current next : DurableRequest) : StoreM Bool := do
  ensureStoredSize next.toJson
  replaceExact current next

def DurableRequest.withResult (value : Value) : DurableRequest :=
  { row with result := some value }

def DurableRequest.acknowledged : DurableRequest :=
  { row with phase := .acked }

/-- Make the result of a published row durable, executing the request if there is none
yet. The row to acknowledge, or the row to start again from after a lost exchange. -/
def saveResult (attempt : Nat) (record : DurableRequest) :
    StoreM (DurableRequest ⊕ DurableRequest) :=
  match record.result with
  | some _ => return .inl record
  | none => do
    let answer ← invoke handler attempt record
    let value ← resultToSave record.command answer
    if ← exchange record (record.withResult value) then return .inl (record.withResult value)
    else do
      let other ← readRow codec record.requestId
      if other.result = none ∨ other.phase = .acked then return .inr other
      else return .inl other

/-- Retire the receipt of a row that has reached its outcome, and answer. -/
def answerSettled : StoreM ControllerAck := do
  retireReceipt record.requestId
  settled record

/-- Advance one row to its durable ACK: `fuel` bounds the retries after a lost
exchange. -/
def driveToAck (handler : CommandHandler) : Nat → DurableRequest → StoreM ControllerAck
  | 0, _ => Prog.fail (invalidStored "request CAS contention did not converge")
  | fuel + 1, record => do
    if record.phase = .acked then answerSettled record
    else
      -- the result becomes durable before the acknowledgement
      match ← saveResult codec handler fuel record with
      | .inr other => driveToAck handler fuel other
      | .inl current =>
        if ← exchange current current.acknowledged then answerSettled current.acknowledged
        else driveToAck handler fuel (← readRow codec current.requestId)

/-- Contention is retried three times. -/
def driveFuel : Nat := 4

/-- Tell the caller of a failed drive whether the request can still be resumed. -/
def reportFailure (drive : StoreM ControllerAck) : StoreM ControllerAck := do
  match ← drive.attempt with
  | .ok ack => return ack
  | .error error =>
    match ← (loadLocked codec id).attempt with
    | .error _ => Prog.fail (.resumable error)
    | .ok none => Prog.fail error
    | .ok (some row) =>
      match savedRejection row.result with
      | .ok none => Prog.fail (.resumable error)
      | _ => Prog.fail error

def handleWith (now : Nat) : StoreM ControllerAck := do
  match ← loadLocked codec request.requestId with
  | some existing =>
    checkReplay codec existing request
    reportFailure codec request.requestId (driveToAck codec handler driveFuel existing)
  | none =>
    -- discoverability comes before publication
    ensurePendingReceipt codec request now
    match handler.prepare request with
    | .error error =>
      let _ ← (retireReceipt request.requestId).attempt
      Prog.fail error
    | .ok opMeta =>
      let record ← publishWith codec request opMeta
      reportFailure codec request.requestId (driveToAck codec handler driveFuel record)

/-! ## The tick -/

structure ActiveResumeConfig where
  (maxRequestsPerTick orphanGraceMillis : Nat)

inductive Outcome where
  | completed (ack : ControllerAck)
  | busySkipped
  | orphan
  | retiredOrphan
  | failed (error : ControllerError)

structure ActiveResumeReport where
  attempted : List (String × Outcome)
  (truncated cursorStale : Bool)

def activeNames (s : Store) : List String :=
  (s.active.keys.filter fun name => ".json".toList.isSuffixOf name.toList).mergeSort (· ≤ ·)

/-- The sorted names from the first one after the cursor on, and then from the start. -/
def rotatePastCursor (cursor : Option String) (sorted : List String) : List String :=
  match cursor with
  | none => sorted
  | some last =>
    match sorted.findIdx? fun name => last < name with
    | some pos => sorted.drop pos ++ sorted.take pos
    | none => sorted

def readCursor (s : Store) : Option String := s.cursor.join

def persistCursor (lastKey : String) : StoreM Bool := do
  Prog.write fun s => { s with cursor := some (some lastKey) }
  return true

/-- Attempt one entry of the active index. `busy` are the requests whose lock another
process holds. -/
def attemptEntry (config : ActiveResumeConfig) (now : Nat) (busy : RequestId → Bool)
    (name : String) : StoreM Outcome := do
  match activeRequestId name with
  | .error error => return .failed error
  | .ok id =>
    if busy id then return .busySkipped
    match ← (readPending name).attempt with
    | .error error => return .failed error
    | .ok receipt =>
      match ← (loadLocked codec id).attempt with
      | .error error => return .failed error
      | .ok none =>
        if now - receipt.createdAtMillis < config.orphanGraceMillis then return .orphan
        match ← (retireReceipt id).attempt with
        | .error error => return .failed error
        | .ok () => return .retiredOrphan
      | .ok (some record) =>
        match checkRowAgainstReceipt record receipt with
        | .error error => return .failed error
        | .ok () =>
          match ← (driveToAck codec handler driveFuel record).attempt with
          | .error error => return .failed error
          | .ok ack => return .completed ack

def attemptAll (handler : CommandHandler) (config : ActiveResumeConfig) (now : Nat)
    (busy : RequestId → Bool) : List String → StoreM (List (String × Outcome))
  | [] => return []
  | name :: names => do
    let outcome ← attemptEntry codec handler config now busy name
    return (name, outcome) :: (← attemptAll handler config now busy names)

def resumeActiveBounded (config : ActiveResumeConfig) (now : Nat) (busy : RequestId → Bool) :
    StoreM ActiveResumeReport := do
  let s ← Prog.get
  let bound := max config.maxRequestsPerTick 1
  let rotated := rotatePastCursor (readCursor s) (activeNames s)
  let window := rotated.take bound
  let attempted ← attemptAll codec handler config now busy window
  match window.getLast? with
  | none => return { attempted, truncated := decide (bound < rotated.length), cursorStale := false }
  | some last =>
    let persisted ← persistCursor last
    return { attempted, truncated := decide (bound < rotated.length), cursorStale := !persisted }

end

end MacWorker.Controller
