import MacWorker.Job.Outcome
import MacWorker.Turn.Logs

/-! # Publication of a turn

When a turn has ended, its result is read from the files of the turn and recorded on the
task. The supervisor does this with what its pumps observed. If it stops before, a later
status or cancel call does it, with only the terminal status of the job.

`TurnWorld` is what a publication meets: the files of the turn, and the answers of the
stores, of Git and of the outbox. -/
namespace MacWorker.Turn
open Fallible Job

inductive ResultStatus where
  | done
  | needsInput
  | blocked
  | unknown
  deriving DecidableEq

inductive ResultParseReason where
  | noResultJson
  | emptyOutput
  | truncated
  | schemaMismatch (field : String)
  deriving DecidableEq

/-- The part of an agent's result that decides the outcome. -/
structure StructuredResult where
  status : ResultStatus
  parseReason : Option ResultParseReason

inductive AgentOutcome where
  | done
  | needsInput
  | blocked
  | unknown
  | failed (exitCode : UInt8)
  | signalled

structure AgentAdapter where
  reader : RecordReader
  extractResult : String → Option String → Except String StructuredResult
  outputShowsAuthFailure : String → String → Bool

namespace AgentAdapter

def classify (exitCode : Option Int) (status : ResultStatus) : AgentOutcome :=
  match exitCode with
  | none => .signalled
  | some code =>
    if code = 0 then
      match status with
      | .done => .done
      | .needsInput => .needsInput
      | .blocked => .blocked
      | .unknown => .unknown
    else .failed (if 0 ≤ code ∧ code < 256 then UInt8.ofNat code.toNat else 1)

def parses (a : AgentAdapter) (text : String) : Bool :=
  match a.extractResult "" (some text) with
  | .ok result => result.status != .unknown
  | .error _ => false

end AgentAdapter

/-- How the stores answer while a turn is published, and what its files hold. -/
structure TurnWorld where
  adapter : AgentAdapter
  (stdout stderr : List UInt8)
  /-- `tail.log`. -/
  tail : Except WorkerError (Option String)
  /-- `last.md`, with its mode restored. -/
  last : Except WorkerError (Option String)
  setup : Except WorkerError (Option SetupStageResult)
  taskState : TaskState
  /-- The last turn of the task, and whether it has no terminal yet. -/
  lastTurn : Option (TurnId × Bool)
  /-- The head of a prepared integration turn, after its checks. -/
  integration : Except WorkerError (Option BaseOid)
  session : Except WorkerError (Option String)
  bindSession : String → Except WorkerError Unit
  persistParseReason : ResultParseReason → Except WorkerError Unit
  /-- The commit the workspace of the task was published as. -/
  publishWorkspace : Except WorkerError (Option BaseOid)
  recordIncident : Except WorkerError Unit
  /-- The reading of the clock for the record of a success. -/
  successClock : Except WorkerError Unit
  /-- The task pushes its result, with the intent committed to the outbox. -/
  commitIntent : Option (Option BaseOid → Except WorkerError Unit)
  publicationBoundary : Except WorkerError Unit
  failureReason : String → String
  finishTurn : Except WorkerError Unit
  /-- Whether the outbox holds an intent of this turn, or cannot say. -/
  recoverableIntent : Bool
  (finishFallback discardRedaction : Except WorkerError Unit)
  /-- Closing the task after a turn that is done, where its policy asks for it. -/
  closeAfterDone : Option (Except WorkerError Unit)

structure TurnRecord where
  terminal : TurnTerminal
  outcome : TaskOutcome
  logTruncated : Bool

def publishFailed (message : String) : WorkerError := .task "PUBLISH_FAILED" message

/-! ## Reading the files -/

/-- Every run of blanks that holds a newline becomes one newline. -/
def collapseBlankRuns (text : String) : String := String.ofList (go [] text.toList)
where
  go (run : List Char) : List Char → List Char
  | [] => flush run
  | c :: rest =>
    if c = ' ' ∨ c = '\t' ∨ c = '\r' ∨ c = '\n' then go (run ++ [c]) rest
    else flush run ++ c :: go [] rest
  flush (run : List Char) : List Char := if '\n' ∈ run then ['\n'] else run

variable (w : TurnWorld) (terminal : TurnTerminal)

def readLastMessage : Except WorkerError (Option String) := do
  match ← w.last with
  | none => pure none
  | some text =>
    if (bytes text).length ≤ maxPromptBytes then pure (some text)
    else do
      let compacted := collapseBlankRuns text
      ensure ((bytes compacted).length ≤ maxPromptBytes)
        (publishFailed "cannot read last.md: message exceeds the result limit")
      pure (some compacted)

/-- The texts of the setup failures that become the outcome of the turn. -/
def preparationFailureReason (code : String) : Option String :=
  if code = "SETUP_INPUTS_CHANGED" then
    some "SETUP_INPUTS_CHANGED: review setup inputs and submit a new task to approve them"
  else if code = "AGENT_IDENTITY_PROBE_FAILED" then
    some "AGENT_IDENTITY_PROBE_FAILED: agent --version exceeded its time or output bound"
  else if code = "AGENT_EXECUTABLE_NOT_FOUND" then
    some "AGENT_EXECUTABLE_NOT_FOUND: check the agent PATH in the login shell and env profile"
  else if code = "OPENCODE_DIALECT_MISMATCH" then
    some ("OPENCODE_DIALECT_MISMATCH: the worker's OpenCode is not the generation this turn was " ++
      "built for, so it was not started; run `worker workers --refresh` and retry")
  else if code = "OPENCODE_VERSION_UNVERIFIED" then
    some ("OPENCODE_VERSION_UNVERIFIED: `opencode --version` gave no version on the worker, so " ++
      "the turn was not started without --standalone; check OpenCode in the worker's login shell")
  else none

def preparationFailureOutcome : Except WorkerError (Option TaskOutcome) := do
  let failure ← w.setup
  pure ((failure.bind fun f => preparationFailureReason f.code).map fun reason =>
    .failed (w.failureReason reason))

def authScanTailBytes : Nat := 64 * 1024

def readAuthScanTail (log : List UInt8) : String :=
  w.adapter.reader.text (log.drop (log.length - authScanTailBytes))

/-! ## Publication -/

/-- The outcome of a task after a turn that ended so. -/
def fromTurn (outcome : AgentOutcome) : TaskOutcome :=
  match terminal, outcome with
  | .lost, _ => .lost
  | .timedOut, _ => .timedOut
  | .cancelled, _ => .cancelled
  | .succeeded, .done => .done
  | .succeeded, .needsInput => .needsInput
  | .succeeded, .blocked => .blocked
  | .succeeded, .unknown => .unknown
  | .succeeded, .failed code | .failed, .failed code =>
    .failed (w.failureReason ("agent exited " ++ toString code.toNat))
  | .succeeded, .signalled => .cancelled
  | .failed, _ => .failed (w.failureReason "turn failed")

/-- The outcome, with the record of an authentication incident or success. -/
def decideOutcome (exitCode : Option Int) (status : ResultStatus) :
    Except WorkerError TaskOutcome := do
  let agentOutcome := AgentAdapter.classify exitCode status
  let authFailed := (terminal == .succeeded || terminal == .failed) &&
    (match agentOutcome with | .failed _ => true | _ => false) &&
    w.adapter.outputShowsAuthFailure (readAuthScanTail w w.stdout) (readAuthScanTail w w.stderr)
  match ← preparationFailureOutcome w with
  | some outcome => pure outcome
  | none =>
    if authFailed then do
      w.recordIncident
      pure (.failed (w.failureReason "agent authentication failed"))
    else if terminal = .succeeded then do
      w.successClock
      pure (fromTurn w terminal agentOutcome)
    else pure (fromTurn w terminal agentOutcome)

/-- The session of the task, bound now if the scan found one. -/
def ensureSessionBinding (existing sessionRef : Option String) :
    Except WorkerError (Option String) :=
  match existing, sessionRef with
  | some session, _ => pure (some session)
  | none, none => pure none
  | none, some session => do
    w.bindSession session
    pure (some session)

/-- The result in the scanned records, the last message or the tail. -/
def structuredResult (tail last : Option String) (scan : StdoutScan) :
    Except WorkerError StructuredResult :=
  (w.adapter.extractResult scan.resultText (last.or (tail.filter w.adapter.parses))).mapError
    publishFailed

/-- Keep why no result was found, unless the turn never got to its agent. -/
def noteParseReason (structured : StructuredResult) (preparation : Option TaskOutcome) :
    Except WorkerError Unit :=
  let parseReason :=
    if structured.parseReason = some .emptyOutput ∧
        (readAuthScanTail w w.stdout).toList.all Char.isWhitespace = false
    then some .noResultJson else structured.parseReason
  if preparation = none then checkSome parseReason w.persistParseReason else pure ()

/-- The commit of the result. An integration turn has its own. -/
def resultHead : Option BaseOid → Except WorkerError (Option BaseOid)
  | some head => pure (some head)
  | none => w.publishWorkspace

def commitDelivery (integration head : Option BaseOid) : Except WorkerError Unit :=
  if integration = none then checkSome w.commitIntent (fun commit => commit head) else pure ()

/-- The result, the workspace and the outcome, once the log has been scanned. -/
def publishScanned (integration : Option BaseOid) (tail last : Option String)
    (existing : Option String) (scan : StdoutScan) (terminal : TurnTerminal) (exitCode : Option Int)
    (logTruncated : Bool) : Except WorkerError TurnRecord := do
  let session ← ensureSessionBinding w existing scan.sessionRef
  ensure (¬(session = none ∧ terminal = .succeeded))
    (publishFailed "successful turn did not bind an agent session")
  let structured ← structuredResult w tail last scan
  let preparation ← preparationFailureOutcome w
  noteParseReason w structured preparation
  let head ← resultHead w integration
  let outcome ← decideOutcome w terminal exitCode structured.status
  commitDelivery w integration head
  w.publicationBoundary
  w.finishTurn
  pure ⟨terminal, outcome, logTruncated⟩

/-- A bound session and a last message with a result make the scan needless. -/
def scanFor (existing : Option String) (lastParses : Bool) : StdoutScan :=
  if existing.isSome && lastParses then .empty else scanStdoutProtocol w.adapter.reader w.stdout

def publishWithTerminal (exitCode : Option Int) (protocolTruncated logTruncated : Bool) :
    Except WorkerError TurnRecord := do
  ensure (w.lastTurn.isSome = true) (publishFailed "task has no turn history")
  let integration ← w.integration
  let tail ← w.tail
  let last ← readLastMessage w
  let lastParses := last.any w.adapter.parses
  let existing ← w.session
  let scan := scanFor w existing lastParses
  if (protocolTruncated || scan.truncated) && !lastParses then do
    w.persistParseReason .truncated
    .error (publishFailed "truncated protocol output cannot be published as a result")
  else publishScanned w integration tail last existing scan terminal exitCode logTruncated

structure Publication where
  answer : Except WorkerError TurnRecord
  record : Option TurnRecord

/-- After a failed publication the turn is ended with the failure, unless its
delivery can still be recovered. -/
def fallback (logTruncated : Bool) (error : WorkerError) : Publication :=
  if w.lastTurn.any (·.2) ∧ w.recoverableIntent = false then
    match preparationFailureOutcome w with
    | .error unread => ⟨.error unread, none⟩
    | .ok outcome =>
      match w.finishFallback with
      | .ok () =>
        ⟨.error error, some ⟨terminal, outcome.getD (.failed "PUBLISH_FAILED"), logTruncated⟩⟩
      | .error _ => ⟨.error error, none⟩
  else ⟨.error error, none⟩

/-- A task that is done is closed where its policy asks for it. -/
def closeAfterOwnTerminalTurn (record : TurnRecord) : Except WorkerError TurnRecord := do
  if record.outcome = .done then checkSome w.closeAfterDone id else pure ()
  pure record

/-- The redaction snapshot goes with the last attempt. -/
def settle (published : Publication) : Publication :=
  if published.record = none ∧ w.lastTurn.any (·.2) then published
  else
    match w.discardRedaction with
    | .error error => { published with answer := .error error }
    | .ok () => { published with answer := published.answer >>= closeAfterOwnTerminalTurn w }

def invoke (exitCode : Option Int) (protocolTruncated logTruncated : Bool) : Publication :=
  settle w <|
    match publishWithTerminal w terminal exitCode protocolTruncated logTruncated with
    | .ok record => ⟨.ok record, some record⟩
    | .error error => fallback w terminal logTruncated error

/-! ## The two publishers -/

def ownPublication (terminal : Terminal) (pumped : TurnPumpResult) : Publication :=
  invoke w terminal.kind terminal.exitCode pumped.stdoutTruncated pumped.logTruncated

/-- Publication by a later call, from the status of the job. `none` means that
there is nothing to publish. -/
def recoverTerminalTurnPublication (job : JobId) (status : JobStatus) :
    Except WorkerError (Option Publication) :=
  if w.taskState = .active then
    if w.lastTurn = some (job, true) then do
      let (kind, _, exitCode) ← terminalTurnRecovery status
      pure (some (invoke w kind exitCode false false))
    else .error (.protocol
      "TASK_TURN_CONFLICT: terminal job retains a turn payload but task has another active turn")
  else pure none

/-! ## What a publication records -/

/-- The record carries the terminal and the flag the publisher was given. -/
def Carries (logTruncated : Bool) (record : TurnRecord) : Prop :=
  record.terminal = terminal ∧ record.logTruncated = logTruncated

section
variable {w : TurnWorld} {terminal : TurnTerminal} {exitCode : Option Int}
  {protocolTruncated logTruncated : Bool} {record : TurnRecord}

theorem publishScanned_carries {integration tail last existing scan}
    (h : publishScanned w integration tail last existing scan terminal exitCode logTruncated =
      .ok record) : Carries terminal logTruncated record := by
  simp only [publishScanned, bind_eq_ok] at h
  obtain ⟨_, -, _, -, _, -, _, -, _, -, _, -, _, -, _, -, _, -, _, -, h⟩ := h
  cases h
  exact ⟨rfl, rfl⟩

theorem publishWithTerminal_carries
    (h : publishWithTerminal w terminal exitCode protocolTruncated logTruncated = .ok record) :
    Carries terminal logTruncated record := by
  simp only [publishWithTerminal, bind_eq_ok] at h
  obtain ⟨_, -, _, -, _, -, _, -, _, -, h⟩ := h
  split at h
  · simp only [bind_eq_ok, reduceCtorEq, and_false, exists_const] at h
  · exact publishScanned_carries h

theorem fallback_carries {error} (h : (fallback w terminal logTruncated error).record =
    some record) :
    Carries terminal logTruncated record := by
  unfold fallback at h
  split at h
  · split at h
    · cases h
    · split at h
      · cases h; exact ⟨rfl, rfl⟩
      · cases h
  · cases h

theorem settle_record (published : Publication) :
    (settle w published).record = published.record := by
  unfold settle
  split
  · rfl
  · split <;> rfl

theorem invoke_carries
    (h : (invoke w terminal exitCode protocolTruncated logTruncated).record = some record) :
    Carries terminal logTruncated record := by
  unfold invoke at h
  rw [settle_record] at h
  split at h
  · next hok => cases h; exact publishWithTerminal_carries hok
  · exact fallback_carries h

end

/-- **A recovered publication equals the supervisor's own exactly when no log was cut.**
For every end a supervisor gives its job, every output of its child and everything the
publication meets, while the turn is in flight: a later call publishes the same terminal
from the status alone, and if both logs were stored whole it publishes the same in every
respect. If a log was cut and the supervisor's publication records the turn, the recovered
one leaves another record. -/
theorem recovered_publication_equal {running : JobStatus} {terminal : Terminal}
    (hend : Ends running terminal) (w : TurnWorld) (job : JobId) (hstate : w.taskState = .active)
    (hturn : w.lastTurn = some (job, true)) (stdout stderr : List Read) :
    let pumped := turnPumps .production stdout stderr
    let own := ownPublication w terminal pumped
    ∃ recovered, recoverTerminalTurnPublication w job terminal.status = .ok (some recovered) ∧
      (∀ record, recovered.record = some record → record.terminal = terminal.kind) ∧
      (pumped.logTruncated = false → recovered = own) ∧
      (pumped.logTruncated = true → own.record ≠ none → recovered.record ≠ own.record) := by
  intro pumped own
  obtain ⟨path, hr⟩ := hend.recovery
  refine ⟨invoke w terminal.kind terminal.exitCode false false, ?_, ?_, ?_, ?_⟩
  · simp only [recoverTerminalTurnPublication, hstate, if_true, hturn, hr]
    rfl
  · intro record h
    exact (invoke_carries h).1
  · intro hw
    have hou : pumped.stdoutTruncated = false := by
      simp only [pumped, turnPumps, Bool.or_eq_false_iff] at hw ⊢
      exact hw.1
    simp only [own, ownPublication, hw, hou]
  · intro hc hs heq
    cases how : own.record with
    | none => exact hs how
    | some record =>
      have ht : record.logTruncated = true := (invoke_carries how).2.trans hc
      have hf : record.logTruncated = false := (invoke_carries (heq.trans how)).2
      cases ht.symm.trans hf

/-- An agent that says nothing the publication can use. -/
def silentAdapter : AgentAdapter where
  reader := ⟨fun _ => "", fun _ => none, fun _ => false, fun _ => none⟩
  extractResult _ _ := .ok ⟨.unknown, none⟩
  outputShowsAuthFailure _ _ := false

/-- A turn of a bound session whose stores all answer. -/
def calmWorld (stdout : List UInt8) : TurnWorld where
  adapter := silentAdapter
  stdout := stdout
  stderr := []
  tail := .ok none
  last := .ok none
  setup := .ok none
  taskState := .active
  lastTurn := some (⟨1⟩, true)
  integration := .ok none
  session := .ok (some "session")
  bindSession _ := .ok ()
  persistParseReason _ := .ok ()
  publishWorkspace := .ok none
  recordIncident := .ok ()
  successClock := .ok ()
  commitIntent := none
  publicationBoundary := .ok ()
  failureReason := id
  finishTurn := .ok ()
  recoverableIntent := false
  finishFallback := .ok ()
  discardRedaction := .ok ()
  closeAfterDone := none

def runningJob : JobStatus :=
  ⟨.running, 4, some ⟨1, 1⟩, some ⟨2, 1⟩, none, none, none, none, none, none⟩

def exitedZero : Terminal :=
  ⟨⟨.succeeded, 5, some ⟨1, 1⟩, some ⟨2, 1⟩, some 0, none, some 7, some 0, none, none⟩, .succeeded,
    some 0, .childExit 0⟩

theorem ends_exitedZero : Ends runningJob exitedZero := by
  have h : terminalFromSetupOrOutcome runningJob (.exited 0) none 5 7 0 = .ok exitedZero := by
    decide
  exact .outcome h

theorem recovered_publication_equal_exit :
    let hello : List UInt8 := [104, 101, 108, 108, 111, 33, newline]
    recoverTerminalTurnPublication (calmWorld hello) ⟨1⟩ exitedZero.status =
      .ok (some (ownPublication (calmWorld hello) exitedZero
        (turnPumps .production [⟨hello, false⟩] []))) := by
  intro hello
  obtain ⟨recovered, hr, -, heq, -⟩ :=
    recovered_publication_equal ends_exitedZero (calmWorld hello) ⟨1⟩ rfl rfl [⟨hello, false⟩] []
  rw [hr, heq rfl]

/-- One byte more than the log can hold, all of it empty lines. -/
def longOutput : List Read := [⟨List.replicate (logCapBytes + 1) newline, false⟩]

theorem longOutput_pumped : (turnPumps .production longOutput []).stdout =
      List.replicate logCapBytes newline ∧
    (turnPumps .production longOutput []).stdoutTruncated = true ∧
    (turnPumps .production longOutput []).logTruncated = true := by
  have hc : StreamPumpConfig.production.cap <
      (List.replicate (logCapBytes + 1) newline).length := by
    rw [List.length_replicate]
    exact Nat.lt_succ_self _
  have hk : (List.replicate (logCapBytes + 1) newline).take StreamPumpConfig.production.cap =
      List.replicate logCapBytes newline := by
    rw [List.take_replicate]
    exact congrArg (List.replicate · newline) (Nat.min_eq_left (Nat.le_succ _))
  obtain ⟨hs, hou, hl⟩ := turnPumps_one .production (List.replicate (logCapBytes + 1) newline)
  unfold longOutput
  rw [hs, hou, hl, decide_eq_true hc]
  exact ⟨hk, rfl, rfl⟩

theorem silent_inert (record : List UInt8) :
    considerProtocolRecord silentAdapter.reader .empty record = .empty := by
  simp only [considerProtocolRecord, silentAdapter]
  rfl

theorem calmWorld_published {log}
    (h : (scanStdoutProtocol silentAdapter.reader log).truncated = false) :
    invoke (calmWorld log) .succeeded (some 0) false false =
      ⟨.ok ⟨.succeeded, .unknown, false⟩, some ⟨.succeeded, .unknown, false⟩⟩ := by
  have hf : (false || (scanFor (calmWorld log) (some "session") false).truncated) = false := h
  have hp : publishWithTerminal (calmWorld log) .succeeded (some 0) false false =
      .ok ⟨.succeeded, .unknown, false⟩ := by
    show (if ((false || (scanFor (calmWorld log) (some "session") false).truncated) && !false) =
      true
      then _ else _) = _
    rw [hf]
    rfl
  unfold invoke
  rw [hp]
  rfl

/-- The child exits with code zero after more output than the log holds, cut at
the end of a line. The supervisor's own publication refuses the result and
marks the log; the recovered one publishes it and does not. -/
theorem cut_log_published_by_recovery :
    let pumped := turnPumps .production longOutput []
    let world := calmWorld pumped.stdout
    let own := ownPublication world exitedZero pumped
    own.answer = .error (publishFailed
      "truncated protocol output cannot be published as a result") ∧
    own.record = some ⟨.succeeded, .failed "PUBLISH_FAILED", true⟩ ∧
    ∃ recovered, recoverTerminalTurnPublication world ⟨1⟩ exitedZero.status = .ok (some recovered) ∧
      recovered.answer = .ok ⟨.succeeded, .unknown, false⟩ ∧
      recovered.record = some ⟨.succeeded, .unknown, false⟩ := by
  obtain ⟨hst, hou, hl⟩ := longOutput_pumped
  intro pumped world own
  have hs : (scanStdoutProtocol silentAdapter.reader pumped.stdout).truncated = false := by
    rw [hst]
    refine scanStdoutProtocol_newlines _ silent_inert (fun b hb => List.eq_of_mem_replicate hb) ?_
    rw [List.length_replicate]
  have how : own =
      ⟨.error (publishFailed "truncated protocol output cannot be published as a result"),
        some ⟨.succeeded, .failed "PUBLISH_FAILED", true⟩⟩ := by
    unfold own ownPublication
    rw [hou, hl]
    rfl
  refine ⟨congrArg Publication.answer how, congrArg Publication.record how, _, rfl,
    congrArg Publication.answer (calmWorld_published hs),
    congrArg Publication.record (calmWorld_published hs)⟩

end MacWorker.Turn
