import MacWorker.Integration.Contracts
import MacWorker.Lib.Durable

/-! # The owner of an integration

The coordinator that drives a cycle from the owner's machine: it keeps the record of the
cycle, asks the host for one phase at a time, and applies what the host answers. Record,
policy, preparations of auxiliary turns and reservations of targets are files; the host,
the clock, the task and the queue are asked, and each question has a number, so that two
in a row may be answered differently. An owner may be cut off after any write. -/
namespace MacWorker.Integration
open Fallible Durable
open Prog (require fail)
open Dag (IntegrationStatus IntegrationCode)

/-! ## What surrounds the owner -/

structure OwnerTask extends LocalTaskRecord where
  closeIntent : Bool
  reportedChecks : List ReportedCheck
  maxFollowups : Nat
  turnLimits : TurnLimits

structure IntegrationTaskFacts where
  ordinary : OwnerTask
  (sessionImportComplete continuationPending runnerPresent stopRequested closePending : Bool)
  submissionPending : Bool
  auxiliaryPurpose : Option IntegrationTurnPurpose

/-- What the queue retains of an auxiliary turn. -/
structure IntegrationTurnObservation where
  turnId : TurnId
  queuePosition : Option Nat
  (accepted completed : Bool)

def IntegrationTurnObservation.validate (o : IntegrationTurnObservation) : Checked Unit :=
  ensure ((o.completed = true → o.accepted = true) ∧
    (o.accepted = true → o.queuePosition.isSome)) invalid

inductive IntegrationDriveAdmission where
  | permit
  | park (pause : IntegrationPauseEvidence)

/-- The pauses of the controller, where the owner runs under one. -/
structure OwnerGate where
  elapsedPauseTime : Nat → Nat → Nat → Checked Nat
  /-- When a pause that began at a moment ended. -/
  resumedAt : Nat → Nat → Checked (Option Nat)

/-- The answer to the question of each number. -/
structure OwnerEnv (η : Type) where
  nowMillis : Nat → Nat
  actor : ProcessIdentity
  exited : Nat → ProcessIdentity → Bool
  beginPhase : Nat → IntegrationPhase → Checked IntegrationDriveAdmission
  (facts sourceFacts : Nat → Checked IntegrationTaskFacts)
  gate : Option OwnerGate
  observe : Nat → TurnId → Checked IntegrationTurnObservation
  enqueue : Nat → PreparedIntegrationTurn → Checked TurnId
  importReceipt : Nat → IntegrationReceipt → Checked IntegrationReceipt
  closeIntegrated : Nat → IntegrationReceipt → Checked Unit
  /-- The follow-up of an auxiliary turn, with its prompt composed. -/
  followup : OwnerTask → IntegrationRecord → IntegrationTurnPurpose → Nat → TurnId → Nat →
    Checked PreparedFollowup
  host : Nat → HostIntegrationRequest → η → η × Checked HostIntegrationResponse

/-- A candidate that an answer of the host asked the owner to record: the owner's own
count of attempts at that moment, and whether it refused the candidate as inconsistent. -/
structure Offer where
  candidate : IntegrationCandidate
  attempts : Nat
  refused : Bool

/-- The files of the owner, and the host it talks to. -/
structure OwnerWorld (η : Type) where
  task : TaskId
  clock : Nat
  policy : Option FrozenIntegrationPolicy
  record : Option IntegrationRecord
  prepared : TurnId → Option PreparedIntegrationTurn
  reservations : List TargetReservation
  host : η
  /-- The candidates that the host offered, newest first. This is history: nothing
  reads it. -/
  offers : List Offer

namespace OwnerWorld
variable {η : Type} (w : OwnerWorld η)

def tick : OwnerWorld η := { w with clock := w.clock + 1 }

def setRecord (record : IntegrationRecord) : OwnerWorld η := { w with record := some record }

def setHost (host : η) : OwnerWorld η := { w with host := host }

def setReservations (reservations : List TargetReservation) : OwnerWorld η :=
  { w with reservations := reservations }

def addPrepared (p : PreparedIntegrationTurn) : OwnerWorld η :=
  { w with prepared := fun turn => if turn = p.followup.turnId then some p else w.prepared turn }

def logOffer (offer : Offer) : OwnerWorld η := { w with offers := offer :: w.offers }

end OwnerWorld

variable {η : Type} (codec : Codec)

abbrev OwnerM (η : Type) := Prog IntegrationError (OwnerWorld η)

def ask {α : Type} (question : Nat → α) : OwnerM η α := do
  let w ← Prog.get
  Prog.write OwnerWorld.tick
  return question w.clock

def askChecked {α : Type} (question : Nat → Checked α) : OwnerM η α := do
  let answer ← ask question
  answer

def consult {α : Type} (read : OwnerWorld η → Checked α) : OwnerM η α := do
  let w ← Prog.get
  read w

def saturatingAdd (a b : Nat) : Nat := min (a + b) (2 ^ 64 - 1)

/-! ## Sidecar files -/

/-- A preparation that an intent of the record refers to belongs to it. -/
def IntegrationRecord.reference (record : IntegrationRecord) (p : PreparedIntegrationTurn) :
    Checked Unit :=
  match record.auxiliaries.find? (·.turnId == p.followup.turnId) with
  | none => .ok ()
  | some intent => do
    p.validateFor codec record
    let binding ← p.bindingDigest codec
    ensure (intent.preparedBinding = binding ∧
      intent.createdAtMillis = p.followup.createdAtMillis) invalid

def TargetReservation.validate (r : TargetReservation) : Checked Unit := do
  r.key.validate codec
  ensure r.actor.Valid (.failed "PROTOCOL")

namespace OwnerWorld
variable (w : OwnerWorld η)

def load : Checked (Option IntegrationRecord) :=
  match w.record with
  | none => .ok none
  | some record => do
    record.validate codec
    ensure (record.taskId = w.task) invalid
    return some record

def loaded : Checked IntegrationRecord := do
  match ← w.load codec with
  | none => .error integrationUnavailable
  | some record => return record

def preparation (turn : TurnId) : Checked (Option PreparedIntegrationTurn) :=
  match w.prepared turn with
  | none => .ok none
  | some p => do
    p.validate codec
    ensure (p.followup.taskId = w.task ∧ p.followup.turnId = turn) invalid
    return some p

def loadPrepared (turn : TurnId) : Checked (Option PreparedIntegrationTurn) := do
  let p ← w.preparation codec turn
  match p, ← w.load codec with
  | some p, some record => record.reference codec p
  | _, _ => .ok ()
  return p

/-- Every preparation that the record refers to belongs to it. -/
def references (next : IntegrationRecord) : Checked Unit :=
  next.auxiliaries.forM fun intent => do
    match ← w.preparation codec intent.turnId with
    | none => .ok ()
    | some p => next.reference codec p

/-- A record can be stored over the one with revision `expected`. -/
def replaceable (expected : Nat) (next : IntegrationRecord) : Checked Bool := do
  next.validate codec
  let revision ← nextRevision expected
  ensure (next.taskId = w.task ∧ next.snapshot.revision = revision) invalid
  let old ← w.load codec
  if (old.elim 0 (·.snapshot.revision)) ≠ expected then return false
  else
    match w.policy with
    | none => .error invalid
    | some policy => do
      policy.validate codec
      ensure (policy = next.policy) invalid
      w.references codec next
      return true

/-- Some turn that is not a preparation is the source, and none after it is ordinary. -/
def coversTurns (source : TurnId) : List TurnSummary → Checked Bool
  | [] => .ok false
  | turn :: earlier => do
    match ← w.loadPrepared codec turn.turnId with
    | none => return turn.turnId == source
    | some _ => coversTurns source earlier

def coversLatestOrdinaryWork (ordinary : OwnerTask) (snapshot : IntegrationSnapshot) :
    Checked Bool :=
  w.coversTurns codec snapshot.sourceTurnId ordinary.status.turns.reverse

def atRest (facts : IntegrationTaskFacts) : Bool :=
  !(facts.ordinary.status.state == .active || facts.ordinary.status.state == .queued) &&
    !facts.runnerPresent && facts.ordinary.runner.isNone

def ownerSourceIsCurrent (record : IntegrationRecord) (facts : IntegrationTaskFacts) :
    Checked Bool := do
  let ordinary := facts.ordinary
  if !(← w.coversLatestOrdinaryWork codec ordinary record.snapshot) || facts.continuationPending ||
      facts.submissionPending || facts.stopRequested || facts.closePending ||
      ordinary.autoContinueIntent.isSome || ordinary.closeIntent ||
      ordinary.submissionIntentTurnId.isSome || ordinary.submissionRollbackTurnId.isSome then
    return false
  else
    match ordinary.status.turns.getLast? with
    | none => return false
    | some last =>
      if last.turnId = record.snapshot.sourceTurnId then
        return atRest facts && facts.auxiliaryPurpose.isNone
      else
        match ← w.loadPrepared codec last.turnId with
        | none => return false
        | some p =>
          match p.validateFor codec record with
          | .ok () => return true
          | .error _ => do
            p.validate codec
            return p.integrationId == record.snapshot.integrationId &&
              p.epoch < record.snapshot.epoch && p.followup.taskId == record.taskId &&
              p.workspaceBinding.head == record.snapshot.sourceHead && last.terminal.isSome &&
              atRest facts

/-- A stop cancels the cycle's own auxiliary turn; that is not a newer turn. -/
def sourceIsCurrentAsideFromStop (record : IntegrationRecord) (facts : IntegrationTaskFacts) :
    Checked Bool :=
  w.ownerSourceIsCurrent codec record { facts with stopRequested := false }

end OwnerWorld

/-- What a scan of the reservations for another one finds. -/
inductive ReservationScan where
  | held
  | busy
  | others (count : Nat)

def maxGitDrivers : Nat := 4

/-- Scan the reservations in order; those of exited actors are dropped on the way. -/
def scanReservations (exited : ProcessIdentity → Bool) (r : TargetReservation) :
    List TargetReservation → Nat → List TargetReservation × ReservationScan
  | [], count => ([], .others count)
  | old :: rest, count =>
    if old = r then (old :: rest, .held)
    else if exited old.actor then scanReservations exited r rest count
    else if old.key = r.key then (old :: rest, .busy)
    else
      let (kept, found) := scanReservations exited r rest (count + 1)
      (old :: kept, found)

section
variable (env : OwnerEnv η) (record : IntegrationRecord) (pause : IntegrationPauseEvidence)

abbrev reservationOf (actor : ProcessIdentity) : TargetReservation :=
  ⟨record.targetKey, record.snapshot.integrationId, record.snapshot.epoch, actor⟩

def reserve (actor : ProcessIdentity) : OwnerM η (Option TargetReservation) := do
  let r := reservationOf record actor
  r.validate codec
  let exited ← ask env.exited
  let w ← Prog.get
  match scanReservations exited r w.reservations 0 with
  | (kept, .held) => do
    Prog.write (·.setReservations kept)
    return some r
  | (kept, .busy) => do
    Prog.write (·.setReservations kept)
    return none
  | (kept, .others count) =>
    if maxGitDrivers ≤ count then do
      Prog.write (·.setReservations kept)
      return none
    else do
      Prog.write (·.setReservations (kept ++ [r]))
      return some r

def releaseReservation (r : TargetReservation) : OwnerM η Unit := do
  r.validate codec
  let w ← Prog.get
  match w.reservations.find? (·.key == r.key) with
  | none => return ()
  | some old => do
    require (old = r) invalid
    Prog.write (·.setReservations (w.reservations.filter (·.key != r.key)))

def unclaimed : IntegrationRecord := { record with actor := none }

def release : OwnerM η IntegrationRecord := do
  match record.actor with
  | none => return record
  | some actor => do
    releaseReservation codec (reservationOf record actor)
    return unclaimed record

/-! ## Saving -/

def stamped (revision now : Nat) : IntegrationRecord :=
  { record with
    snapshot := { record.snapshot with revision := revision, updatedAtMillis := now } }

def persistRecord : OwnerM η IntegrationRecord := do
  let revision ← nextRevision record.snapshot.revision
  let now ← ask env.nowMillis
  let next := stamped record revision now
  if ← consult fun w => w.replaceable codec record.snapshot.revision next then do
    Prog.write (·.setRecord next)
    return next
  else fail revisionConflict

/-- Move the deadlines of the record by the time the controller was paused. -/
def extended (extra : Nat) : IntegrationRecord :=
  { record with
    admissionDeadlineMillis := record.admissionDeadlineMillis.map (saturatingAdd · extra)
    snapshot := { record.snapshot with
      retryAtMillis := record.snapshot.retryAtMillis.map (saturatingAdd · extra) } }

def extendElapsedPausesThrough (gate : OwnerGate) (record : IntegrationRecord) (through : Nat) :
    OwnerM η IntegrationRecord := do
  if record.pause.isSome ∨
      (record.admissionDeadlineMillis.isNone ∧ record.snapshot.retryAtMillis.isNone) then
    return record
  else do
    let extra ← askChecked fun n =>
      gate.elapsedPauseTime n record.snapshot.updatedAtMillis through
    if extra ≠ 0 then persistRecord codec env (extended record extra) else return record

def extendElapsedPauses : OwnerM η IntegrationRecord := do
  match env.gate with
  | none => return record
  | some gate => do
    let now ← ask env.nowMillis
    extendElapsedPausesThrough codec env gate record now

def saveRecord : OwnerM η IntegrationRecord := do
  let record ← extendElapsedPauses codec env record
  persistRecord codec env record

/-! ## Leaving a phase -/

def blocked (code : IntegrationCode) : IntegrationRecord :=
  { record with
    snapshot := { record.snapshot with
      state := .blocked
      blockedCode := some code
      resumeState := none
      pauseReason := none
      retryAtMillis := none }
    pause := none
    admissionDeadlineMillis := none }

def block (code : IntegrationCode) : OwnerM η IntegrationRecord := do
  let record ← release codec (blocked record code)
  saveRecord codec env record

def resumed (state : IntegrationStatus) (now : Nat) : IntegrationRecord :=
  { record with
    pause := none
    admissionDeadlineMillis :=
      (record.remainingAdmissionMillis.map (saturatingAdd now)).or record.admissionDeadlineMillis
    remainingAdmissionMillis := none
    remainingBackoffMillis := none
    snapshot :=
      match record.remainingBackoffMillis with
      | some remaining => { record.snapshot with
          state := .retryWait
          resumeState := some state
          pauseReason := none
          retryAtMillis := some (saturatingAdd now remaining) }
      | none => { record.snapshot with
          state := state
          resumeState := none
          pauseReason := none
          retryAtMillis := none } }

/-- The moment a record resumes at: the end of the controller's pause, with what was
paused since, or now. -/
def resumeMoment : OwnerM η Nat := do
  let now ← ask env.nowMillis
  match env.gate, record.pause with
  | some gate, some pause =>
    if pause.reason = .controllerDrained ∨ pause.reason = .controllerDisabled then do
      match ← askChecked fun n => gate.resumedAt n pause.effectiveAtMillis with
      | none => return now
      | some finish => do
        let elapsed ← askChecked fun n => gate.elapsedPauseTime n finish now
        return saturatingAdd finish elapsed
    else return now
  | _, _ => return now

def resumeRecord : OwnerM η IntegrationRecord := do
  let now ← resumeMoment env record
  match record.snapshot.resumeState with
  | none => fail invalid
  | some state => persistRecord codec env (resumed record state now)

def parked : IntegrationRecord :=
  { record with
    remainingAdmissionMillis := (record.admissionDeadlineMillis.map fun d =>
      min (d - pause.effectiveAtMillis) auxiliaryAdmissionMillis).or record.remainingAdmissionMillis
    admissionDeadlineMillis := none
    remainingBackoffMillis := (record.snapshot.retryAtMillis.map fun d =>
      min (d - pause.effectiveAtMillis) 30000).or record.remainingBackoffMillis
    pause := some pause
    snapshot := { record.snapshot with
      retryAtMillis := none
      resumeState := if record.snapshot.state = .retryWait then record.snapshot.resumeState
        else some record.snapshot.state
      state := .parked
      pauseReason := some pause.reason } }

def parkActive : OwnerM η IntegrationRecord := do
  if record.snapshot.state = .blocked ∨ record.snapshot.state = .integrated ∨
      record.snapshot.state = .revoked then return record
  else do
    let record ← match env.gate with
      | none => pure record
      | some gate => extendElapsedPausesThrough codec env gate record pause.effectiveAtMillis
    let record ← release codec (parked record pause)
    persistRecord codec env record

def parkRecord : OwnerM η IntegrationRecord := do
  match record.pause with
  | none => parkActive codec env record pause
  | some previous =>
    if previous.reason = pause.reason then return record
    else if pause.reason = .helperUnavailable ∧ (previous.reason = .controllerDrained ∨
        previous.reason = .controllerDisabled) then
      match env.gate with
      | none => return record
      | some gate => do
        -- The controller may have reopened before the helper went away.
        match ← askChecked fun n => gate.resumedAt n previous.effectiveAtMillis with
        | none => return record
        | some _ => do
          let record ← resumeRecord codec env record
          parkActive codec env record pause
    else
      persistRecord codec env { record with
        pause := some pause
        snapshot := { record.snapshot with pauseReason := some pause.reason } }

def nextRetry (retry : IntegrationPhaseRetry) : Option Nat :=
  transportRetryDelaysMillis[retry.retries]?

def backedOff (phase : IntegrationPhase) (code : IntegrationCode)
    (before after : List IntegrationPhaseRetry) (retry : IntegrationPhaseRetry) (due now : Nat) :
    IntegrationRecord :=
  { record with
    phaseRetries := before ++ { retry with
      retries := retry.retries + 1, code := code, dueAtMillis := due } :: after
    snapshot := { record.snapshot with
      updatedAtMillis := now
      retryAtMillis := some due
      resumeState := some (if phase = .push then .fetching else record.snapshot.state)
      state := .retryWait
      blockedCode := some code } }

def retryPhase (phase : IntegrationPhase) (code : IntegrationCode) :
    OwnerM η IntegrationRecord := do
  if code = .unavailable then do
    let now ← ask env.nowMillis
    parkRecord codec env record ⟨.helperUnavailable, now⟩
  else if code ≠ .network ∧ code ≠ .workerOffline then block codec env record code
  else
    match splitFirst (·.phase == phase) record.phaseRetries with
    | none => fail invalid
    | some (before, retry, after) =>
      match nextRetry retry with
      | none =>
        let record := { record with snapshot := { record.snapshot with retryExhausted := true } }
        block codec env record code
      | some delay => do
        let now ← ask env.nowMillis
        let stamp ← ask env.nowMillis
        let record ← release codec
          (backedOff record phase code before after retry (saturatingAdd now delay) stamp)
        saveRecord codec env record

/-! ## Stopping a superseded cycle

The coordinator stops a cycle whose source a newer turn replaced, wherever it
notices. The stop is a parameter here and is supplied once it is defined. -/

section
variable (stop : IntegrationSnapshot → OwnerM η IntegrationSnapshot) (record : IntegrationRecord)
  (step : IntegrationStep) (receipt : IntegrationReceipt) (facts : IntegrationTaskFacts)
  (purpose : IntegrationTurnPurpose) (tombstone : IntegrationTombstone)
  (aux : IntegrationAuxiliaryIntent)

/-- Whether the cycle was superseded and stopped, and the record after that. -/
def revokeSuperseded : OwnerM η (Bool × IntegrationRecord) := do
  let facts ← askChecked env.sourceFacts
  if ← consult fun w => w.ownerSourceIsCurrent codec record facts then return (false, record)
  else if ← (if record.receipt.isSome
      then consult fun w => w.sourceIsCurrentAsideFromStop codec record facts
      else pure false) then
    return (false, record)
  else do
    discard (stop record.snapshot)
    let record ← consult fun w => w.loaded codec
    return (true, record)

def permit (phase : IntegrationPhase) : OwnerM η (Bool × IntegrationRecord) := do
  match ← revokeSuperseded codec env stop record with
  | (true, record) => return (false, record)
  | (false, record) => do
    match ← askChecked fun n => env.beginPhase n phase with
    | .permit => do
      let record ← extendElapsedPauses codec env record
      return (true, record)
    | .park pause => do
      let record ← parkRecord codec env record pause
      return (false, record)

/-! ## Candidates -/

def invalidateCandidate (attempt : Nat) : IntegrationRecord :=
  { record with
    snapshot := { record.snapshot with
      attempts := attempt
      state := .fetching
      mergeOid := none
      observedTargetOid := none
      verification := .sourceAgentReportOnly }
    phaseRetries := []
    pushIntent := none
    admissionDeadlineMillis := none
    remainingAdmissionMillis := none }

def addCandidate (c : IntegrationCandidate) : IntegrationRecord :=
  { record with candidates := record.candidates ++ [c] }

def recordCandidate (c : IntegrationCandidate) : Checked IntegrationRecord := do
  ensure (c.sourceHead = record.snapshot.sourceHead ∧ c.identity = record.gitIdentity ∧
    c.id.integrationId = record.snapshot.integrationId ∧ c.id.epoch = record.snapshot.epoch) invalid
  match splitFirst (·.id == c.id) record.candidates with
  | some (before, old, after) => do
    ensure (c.id.attempt = record.snapshot.attempts) invalid
    ensure (old.complete c = c) invalid
    return { record with candidates := before ++ c :: after }
  | none => do
    ensure (record.snapshot.attempts ≤ c.id.attempt ∧
      ∀ old ∈ record.candidates, old.id.attempt < c.id.attempt) invalid
    ensure (record.candidates.length < maxCandidates) (.rejected .targetMovedExhausted)
    if record.snapshot.attempts < c.id.attempt then
      return addCandidate (invalidateCandidate record c.id.attempt) c
    else return addCandidate record c

def takeCandidate (c : IntegrationCandidate) : OwnerM η IntegrationRecord := do
  let result := recordCandidate record c
  Prog.write (·.logOffer
    ⟨c, record.snapshot.attempts, result matches .error (.rejected .stateInvalid)⟩)
  result

def validateReceipt : Checked Unit := do
  receipt.validate
  ensure (receipt.integrationId = record.snapshot.integrationId ∧
    receipt.epoch = record.snapshot.epoch ∧
    receipt.sourceTurnId = record.snapshot.sourceTurnId ∧
    receipt.sourceHead = record.snapshot.sourceHead) invalid

/-! ## Auxiliary turns -/

def PreparedIntegrationTurn.prepare (ordinary : OwnerTask) (record : IntegrationRecord)
    (purpose : IntegrationTurnPurpose) (attempt ordinal : Nat) :
    Checked PreparedIntegrationTurn := do
  record.validate codec
  match record.candidates.find? (·.id.attempt == attempt) with
  | none => .error invalid
  | some c => do
    ensure (ordinary.info.taskId = record.taskId ∧
      ordinary.status.headOid = some record.snapshot.sourceHead ∧
      ordinary.autoContinueIntent = none) invalid
    validateConflictPaths codec c.conflictPaths
    let turn ← auxiliaryTurnId codec record.snapshot.integrationId record.snapshot.epoch attempt
      purpose ordinal
    let followup ← env.followup ordinary record purpose attempt turn c.timestampMillis
    ensure ((bytes followup.composedPrompt).length ≤ maxPromptBytes)
      (.rejected .conflictListTooLarge)
    let limits := ordinary.turnLimits
    let prepared : PreparedIntegrationTurn := {
      integrationId := record.snapshot.integrationId
      epoch := record.snapshot.epoch
      attempt := attempt
      purpose := purpose
      ordinal := ordinal
      followup := followup
      workspaceBinding := {
        taskId := record.taskId
        candidate := c.id
        branch := c.cleanH.branch
        head := c.sourceHead
        mergeHead := c.targetHead
        attributeSource := c.attributeSource
        ours := c.ours
        theirs := c.theirs
        pinnedTree := if purpose = .verify then c.treeOid else none
        cleanH := c.cleanH }
      approvedTurnLimits := { limits with
        timeoutMillis := min limits.timeoutMillis auxiliaryAdmissionMillis } }
    prepared.validateFor codec record
    return prepared

def publishPrepared (p : PreparedIntegrationTurn) : OwnerM η Unit := do
  p.validate codec
  let w ← Prog.get
  require (p.followup.taskId = w.task) invalid
  match ← consult fun w => w.load codec with
  | none => pure ()
  | some record => do
    p.validateFor codec record
    record.reference codec p
  match w.prepared p.followup.turnId with
  | some old => require (old = p) invalid
  | none => Prog.write (·.addPrepared p)

def turnBudget : IntegrationTurnPurpose → Nat
  | .resolve => maxResolveTurns
  | .verify => maxVerifyTurns

def turnsSpent : IntegrationTurnPurpose → Nat
  | .resolve => record.snapshot.resolveTurns
  | .verify => record.snapshot.verifyTurns

/-- The record with an auxiliary turn of this purpose under way. -/
def withAuxiliary (ordinal : Nat) (intent : IntegrationAuxiliaryIntent) : IntegrationRecord :=
  let known := record.auxiliaries.any (·.turnId == intent.turnId)
  { record with
    auxiliaries := if known then record.auxiliaries else record.auxiliaries ++ [intent]
    followupsSpent := if known then record.followupsSpent
      else min (record.followupsSpent + 1) (2 ^ 32 - 1)
    snapshot := { record.snapshot with
      resolveTurns := if ¬ known ∧ purpose = .resolve then ordinal else record.snapshot.resolveTurns
      verifyTurns := if ¬ known ∧ purpose = .verify then ordinal else record.snapshot.verifyTurns
      state := purposeStatus purpose }
    admissionDeadlineMillis := none
    remainingAdmissionMillis := none }

/-- The preparation of an auxiliary turn: the one published before, or a new one. -/
def preparedFor (record : IntegrationRecord) (purpose : IntegrationTurnPurpose) (ordinal : Nat)
    (turn : TurnId) (w : OwnerWorld η) : Checked PreparedIntegrationTurn := do
  match ← w.loadPrepared codec turn with
  | some p => do
    p.validateFor codec record
    return p
  | none =>
    PreparedIntegrationTurn.prepare codec env facts.ordinary record purpose
      record.snapshot.attempts ordinal

def prepareAuxiliary : OwnerM η IntegrationRecord := do
  let ordinal := turnsSpent record purpose + 1
  if turnBudget purpose < ordinal then block codec env record .conflictBudgetExhausted
  else do
    let facts ← askChecked env.facts
    if !(← consult fun w => w.ownerSourceIsCurrent codec record facts) then do
      discard (stop record.snapshot)
      consult fun w => w.loaded codec
    else if facts.ordinary.maxFollowups ≤ record.followupsSpent then
      block codec env record .followupLimit
    else do
      let turn ← auxiliaryTurnId codec record.snapshot.integrationId record.snapshot.epoch
        record.snapshot.attempts purpose ordinal
      let w ← Prog.get
      match preparedFor codec env facts record purpose ordinal turn w with
      | .error e =>
        if e = .failed "FOLLOWUP_LIMIT" then block codec env record .followupLimit
        else fail e
      | .ok p => do
        publishPrepared codec p
        let intent ← p.intent codec
        let record ← release codec (withAuxiliary record purpose ordinal intent)
        saveRecord codec env record

/-! ## Phases of the host -/

def stepRequest : HostIntegrationRequest where
  protocolVersion := currentProtocolVersion
  taskId := record.taskId
  integrationId := some record.snapshot.integrationId
  epoch := record.snapshot.epoch
  revision := record.snapshot.revision
  action := .step step record

def stepPhase : IntegrationStep → IntegrationPhase
  | .fetch => .fetch
  | .prepare => .prepare
  | .acceptTurn => .acceptTurn
  | .build => .build
  | .push => .push
  | .repair => .repair

def callHost (request : HostIntegrationRequest) : OwnerM η (Checked HostIntegrationResponse) := do
  let n ← ask id
  let w ← Prog.get
  Prog.write (·.setHost (env.host n request w.host).1)
  return (env.host n request w.host).2

def hostErrorCode : IntegrationError → IntegrationCode
  | .rejected code => code
  | .failed _ => .stateInvalid

def candidateReady (ready : Nat) : IntegrationRecord :=
  { record with
    readyAtMillis := if step = .acceptTurn then ready else record.readyAtMillis
    pushIntent := if step = .fetch
      then record.pushIntent.map fun intent => { intent with uncertain := false }
      else record.pushIntent
    snapshot := { record.snapshot with
      mergeOid := record.candidates.getLast?.bind (·.mergeOid)
      observedTargetOid := record.candidates.getLast?.map (·.targetHead)
      state := if step = .acceptTurn then .fetching else .commitReady } }

def needsTurn : IntegrationRecord :=
  { record with snapshot := { record.snapshot with state := purposeStatus purpose } }

def published : IntegrationRecord :=
  { record with
    receipt := some receipt
    snapshot := { record.snapshot with
      state := .published
      mergeOid := receipt.mergeOid
      observedTargetOid := some receipt.targetHead
      disposition := some receipt.disposition } }

/-- The receipt as the owner keeps it: its own import stands. -/
def keptReceipt : Checked IntegrationReceipt :=
  match record.receipt with
  | none => .ok receipt
  | some old => do
    ensure ({ receipt with imported := old.imported } = old) invalid
    return { receipt with imported := old.imported }

def applyBlocked (code : IntegrationCode) (retryExhausted : Bool) : OwnerM η IntegrationRecord := do
  match ← askChecked fun n => env.beginPhase n (stepPhase step) with
  | .park pause => parkRecord codec env record pause
  | .permit =>
    if code = .resolutionIncomplete ∧ record.snapshot.resolveTurns < maxResolveTurns then
      prepareAuxiliary codec env stop record .resolve
    else
      retryPhase codec env
        { record with snapshot := { record.snapshot with retryExhausted := retryExhausted } }
        (stepPhase step)
        (if code = .resolutionIncomplete then .conflictBudgetExhausted else code)

def applyResponse : HostIntegrationResponse → OwnerM η IntegrationRecord
  | .candidateReady _ c => do
    let record ← takeCandidate record c
    let ready ← (if step = .acceptTurn then do
        let now ← ask env.nowMillis
        pure (saturatingAdd now 1)
      else pure 0)
    saveRecord codec env (candidateReady record step ready)
  | .needTurn _ c purpose =>
    if purpose = .verify ∧ record.policy.verify = .never then
      block codec env record .stateInvalid
    else do
      let record ← takeCandidate record c
      let record ← saveRecord codec env (needsTurn record purpose)
      if step = .prepare then prepareAuxiliary codec env stop record purpose
      else return record
  | .targetMoved _ _ =>
    if maxCandidates ≤ record.snapshot.attempts then
      block codec env record .targetMovedExhausted
    else saveRecord codec env (invalidateCandidate record (record.snapshot.attempts + 1))
  | .integrated _ receipt => do
    validateReceipt record receipt
    let receipt ← keptReceipt record receipt
    saveRecord codec env (published record receipt)
  | .blocked _ code retryExhausted =>
    applyBlocked codec env stop record step code retryExhausted
  | .progress _ (some snapshot) => do
    require (snapshot.sourceHead = record.snapshot.sourceHead ∧
      snapshot.sourceTurnId = record.snapshot.sourceTurnId) invalid
    return record
  | .progress _ none | .revoked _ => fail invalid

def begunPhase (actor : ProcessIdentity) (intent : Option IntegrationPushIntent) (now : Nat) :
    IntegrationRecord :=
  { record with
    actor := some actor
    pushIntent := intent
    phaseRetries := if record.phaseRetries.any (·.phase == stepPhase step) then record.phaseRetries
      else record.phaseRetries ++ [⟨stepPhase step, 0, .network, now⟩]
    snapshot := { record.snapshot with
      state := if step = .fetch then .fetching
        else if step = .push then .pushing else record.snapshot.state
      attempts := if step = .fetch ∧ record.snapshot.attempts = 0 then 1
        else record.snapshot.attempts } }

def ownerPushIntent (now : Nat) : Checked (Option IntegrationPushIntent) :=
  if step = .push then
    match record.candidates.getLast? with
    | none => .error invalid
    | some c =>
      match c.mergeOid with
      | none => .error invalid
      | some mergeOid => .ok (some ⟨c.id, c.targetHead, mergeOid,
          record.pushIntent.elim now (·.startedAtMillis), true⟩)
  else .ok record.pushIntent

/-- A phase that failed on the owner's side only clears the owner's claim to it. -/
def releaseFailedPhase (reservation : TargetReservation) : OwnerM η Unit := do
  releaseReservation codec reservation
  match ← consult fun w => w.load codec with
  | none => return ()
  | some current =>
    if current.snapshot.integrationId = reservation.integrationId ∧
        current.snapshot.epoch = reservation.epoch ∧ current.actor = some reservation.actor then
      discard (saveRecord codec env (unclaimed current))
    else return ()

def settlePhase (answer : Checked HostIntegrationResponse) : OwnerM η IntegrationRecord :=
  match answer with
  | .ok response => do
    response.validateFor codec (stepRequest record step)
    applyResponse codec env stop record step response
  | .error e =>
    applyResponse codec env stop record step
      (.blocked (.forRequest (stepRequest record step)) (hostErrorCode e) false)

/-- Give the target back after a phase, and park where a pause began meanwhile. -/
def concludePhase : OwnerM η IntegrationSnapshot := do
  let record ← (if record.actor.isSome then do
      let record ← release codec record
      saveRecord codec env record
    else pure record)
  if record.snapshot.state = .blocked ∨ record.snapshot.state = .integrated ∨
      record.snapshot.state = .revoked ∨ record.snapshot.state = .parked then
    return record.snapshot
  else
    match ← askChecked fun n => env.beginPhase n (stepPhase step) with
    | .permit => return record.snapshot
    | .park pause => do
      let record ← parkRecord codec env record pause
      return record.snapshot

/-- The rest of a phase once its request is stored: call the host and apply the answer. -/
def finishPhase (reservation : TargetReservation) : OwnerM η IntegrationSnapshot := do
  let answer ← callHost env (stepRequest record step)
  match ← (settlePhase codec env stop record step answer).attempt with
  | .error e => do
    releaseFailedPhase codec env reservation
    fail e
  | .ok record => concludePhase codec env record step

/-- The stored record is still the one the phase began with. -/
def phaseStands (stored : Option IntegrationRecord) : Bool :=
  stored.any fun r => r.snapshot.revision == record.snapshot.revision &&
    (r.tombstone.isNone || step == .fetch || step == .repair)

def hostPhase : OwnerM η IntegrationSnapshot := do
  match ← permit codec env stop record (stepPhase step) with
  | (false, record) => return record.snapshot
  | (true, record) => do
    match ← reserve codec env record env.actor with
    | none => return record.snapshot
    | some reservation => do
      let started ← ask env.nowMillis
      let intent ← ownerPushIntent record step started
      let now ← ask env.nowMillis
      let record ← saveRecord codec env (begunPhase record step env.actor intent now)
      if !phaseStands record step (← consult fun w => w.load codec) then do
        releaseReservation codec reservation
        let stored ← consult fun w => w.loaded codec
        return stored.snapshot
      else
        match ← revokeSuperseded codec env stop record with
        | (true, record) => return record.snapshot
        | (false, record) => finishPhase codec env stop record step reservation

/-! ## Receipts -/

/-- Closed settlement has its own budget. -/
def closedObservationPending : Bool :=
  record.snapshot.state != .integrated && record.snapshot.state != .revoked &&
    (record.snapshot.state != .blocked || !record.phaseRetries.any (·.phase == .drive))

def observingClosed (now : Nat) : IntegrationRecord :=
  { record with
    pause := none
    phaseRetries := if record.phaseRetries.any (·.phase == .drive) then record.phaseRetries
      else record.phaseRetries ++ [⟨.drive, 0, .workerOffline, now⟩]
    snapshot := { record.snapshot with
      state := if step = .repair then .published else .fetching
      resumeState := none
      retryAtMillis := none
      blockedCode := none
      retryExhausted := false
      pauseReason := none } }

def closedWaits (now : Nat) : Bool :=
  !closedObservationPending record || (record.phaseRetries.any (·.phase == .drive) &&
    record.snapshot.retryAtMillis.any (now < ·))

/-- Ask the host about a closed task: an answer that is not a refusal, if there is one,
and the record after that. -/
def closedObservation : OwnerM η (Option HostIntegrationResponse × IntegrationRecord) := do
  let now ← ask env.nowMillis
  if closedWaits record now then return (none, record)
  else do
    let moment ← ask env.nowMillis
    let record ← saveRecord codec env (observingClosed record step moment)
    match ← callHost env (stepRequest record step) with
    | .error e => do
      let record ← retryPhase codec env record .drive (hostErrorCode e)
      return (none, record)
    | .ok response => do
      response.validateFor codec (stepRequest record step)
      match response with
      | .blocked _ code exhausted => do
        let record ← retryPhase codec env
          { record with snapshot := { record.snapshot with retryExhausted := exhausted } } .drive
            code
        return (none, record)
      | response => return (some response, record)

/-- The receipt of a repair repeats the one of the record, up to its import. -/
def repeatsReceipt : HostIntegrationResponse → Checked Unit
  | .integrated _ repaired => do
    validateReceipt record repaired
    ensure (repaired = { receipt with imported := repaired.imported }) invalid
  | _ => .error invalid

def imported : IntegrationRecord :=
  { record with receipt := some receipt }

def integrated : IntegrationRecord :=
  { record with
    pause := none
    snapshot := { record.snapshot with
      state := .integrated
      resumeState := none
      pauseReason := none
      blockedCode := none
      retryAtMillis := none } }

/-- The owner's import of a receipt that the host has repaired the task for. -/
def importReceipt (closed : Bool) : OwnerM η IntegrationSnapshot := do
  let result ← askChecked fun n => env.importReceipt n receipt
  validateReceipt record result
  require (result = { receipt with imported := true }) invalid
  let record ← saveRecord codec env (imported record result)
  let finish : IntegrationRecord → OwnerM η IntegrationSnapshot := fun record => do
    let record ← release codec (integrated record)
    let record ← saveRecord codec env record
    return record.snapshot
  if record.policy.requestedClose = .done ∧ closed = false then do
    match ← permit codec env stop record .repair with
    | (false, record) => return record.snapshot
    | (true, record) => do
      let record ← saveRecord codec env record
      askChecked fun n => env.closeIntegrated n result
      finish record
  else finish record

def finishReceipt (closed : Bool) : OwnerM η IntegrationSnapshot := do
  match record.receipt with
  | none => fail invalid
  | some receipt =>
    if closed then do
      match ← closedObservation codec env record .repair with
      | (none, record) => return record.snapshot
      | (some response, record) => do
        repeatsReceipt record receipt response
        importReceipt codec env stop record receipt closed
    else do
      let snapshot ← hostPhase codec env stop record .repair
      if snapshot.state ≠ .published ∨ snapshot.revision = record.snapshot.revision then
        return snapshot
      else do
        let record ← consult fun w => w.loaded codec
        match ← permit codec env stop record .repair with
        | (false, record) => return record.snapshot
        | (true, record) => do
          let record ← saveRecord codec env record
          importReceipt codec env stop record receipt closed

/-! ## Stopping -/

def acknowledged : IntegrationRecord :=
  { record with
    tombstone := some { tombstone with acknowledged := true }
    pause := none
    admissionDeadlineMillis := none
    snapshot := { record.snapshot with
      state := .revoked
      resumeState := none
      pauseReason := none
      retryAtMillis := none } }

/-- The stop that a confirmation is for is still the stored one. -/
def sameStop (id : IntegrationId) (stop : IntegrationTombstone) : Bool :=
  record.snapshot.integrationId == id && record.snapshot.epoch == stop.epoch &&
    record.tombstone.any fun current => current.epoch == stop.epoch &&
      current.revision == stop.revision && current.requestedAtMillis == stop.requestedAtMillis &&
      (!stop.acknowledged || current.acknowledged)

/-- Store a confirmed stop, over what was stored meanwhile. -/
def saveStop (id : IntegrationId) (tombstone : IntegrationTombstone) :
    Nat → IntegrationRecord → OwnerM η IntegrationRecord
  | attempts, record => do
    require (sameStop record id tombstone = true) (.rejected .stopUnconfirmed)
    require (record.snapshot.state ≠ .integrated) (.rejected .alreadyCommitted)
    match record.tombstone with
    | none => fail (.rejected .stopUnconfirmed)
    | some current =>
      let next := acknowledged record current
      if next = record then return record
      else
        match attempts with
        | 0 => fail (.rejected .stopUnconfirmed)
        | attempts + 1 => do
          let next ← release codec next
          match ← (saveRecord codec env next).attempt with
          | .ok record => return record
          | .error e =>
            if e = revisionConflict then do
              match ← consult fun w => w.load codec with
              | none => fail (.rejected .stopUnconfirmed)
              | some record => saveStop id tombstone attempts record
            else fail e

def revokeRequest : HostIntegrationRequest where
  protocolVersion := currentProtocolVersion
  taskId := record.taskId
  integrationId := some record.snapshot.integrationId
  epoch := tombstone.epoch
  revision := tombstone.revision
  action := .revoke tombstone

/-- The cycle is over without the host's word: the task went on to another source, and
the host refuses the old one. -/
def superseded : IntegrationRecord :=
  { record with
    tombstone := none
    pause := none
    admissionDeadlineMillis := none
    snapshot := { record.snapshot with
      state := .revoked
      blockedCode := some .stateInvalid
      resumeState := none
      pauseReason := none
      retryAtMillis := none } }

def wonRecord (receipt : IntegrationReceipt) : IntegrationRecord :=
  { record with
    tombstone := some { tombstone with acknowledged := true }
    receipt := some receipt
    snapshot := { record.snapshot with
      mergeOid := receipt.mergeOid
      observedTargetOid := some receipt.targetHead
      disposition := some receipt.disposition } }

/-- A won push of a cycle that a newer turn superseded. -/
def wonSuperseded : IntegrationRecord :=
  { record with
    pause := none
    admissionDeadlineMillis := none
    snapshot := { record.snapshot with
      state := .revoked
      resumeState := none
      pauseReason := none
      retryAtMillis := none } }

def wonPublished : IntegrationRecord :=
  { record with snapshot := { record.snapshot with state := .published } }

def withStop : IntegrationRecord :=
  { record with tombstone := some tombstone }

/-- The record with a stop requested, stored before the host is asked. -/
def requestStop : OwnerM η IntegrationRecord := do
  match record.tombstone with
  | some _ => return record
  | none => do
    let revision ← nextRevision record.snapshot.revision
    let now ← ask env.nowMillis
    saveRecord codec env (withStop record ⟨record.snapshot.epoch, revision, now, false⟩)

/-- A refusal of the stop settles it only where the task went on to another source. -/
def stopRefused : OwnerM η IntegrationSnapshot := do
  let facts ← askChecked env.sourceFacts
  let w ← Prog.get
  require (facts.ordinary.info.taskId = w.task ∧
    (facts.ordinary.status.turns.any (·.turnId == record.snapshot.sourceTurnId)) = true)
    (.rejected .stopUnconfirmed)
  if ← consult fun w => w.coversLatestOrdinaryWork codec facts.ordinary record.snapshot then
    fail (.rejected .stopUnconfirmed)
  else do
    let record ← release codec (superseded record)
    let record ← saveRecord codec env record
    return record.snapshot

/-- The host answered a stop with the receipt of a push that won. -/
def stopWon : OwnerM η (Bool × IntegrationRecord) := do
  validateReceipt record receipt
  match record.tombstone with
  | none => fail invalid
  | some tombstone => do
    let record := wonRecord record tombstone receipt
    let facts ← askChecked env.sourceFacts
    if ← consult fun w => w.sourceIsCurrentAsideFromStop codec record facts then do
      let record ← release codec (wonPublished record)
      let record ← saveRecord codec env record
      return (true, record)
    else do
      let record ← release codec (wonSuperseded record)
      let record ← saveRecord codec env record
      return (false, record)

def askStop : OwnerM η IntegrationSnapshot := do
  let record ← requestStop codec env record
  match record.tombstone with
  | none => fail invalid
  | some tombstone =>
    match ← callHost env (revokeRequest record tombstone) with
    | .error e =>
      if e = invalid then stopRefused codec env record
      else fail (.rejected .stopUnconfirmed)
    | .ok response => do
      response.validateFor codec (revokeRequest record tombstone)
      match response with
      | .revoked _ => do
        let record ← saveStop codec env record.snapshot.integrationId tombstone 3 record
        return record.snapshot
      | .integrated _ receipt => do
        match ← stopWon codec env record receipt with
        | (false, record) => return record.snapshot
        | (true, record) => do
          discard (finishReceipt codec env stop record false)
          fail (.rejected .alreadyCommitted)
      | _ => fail (.rejected .stopUnconfirmed)

def revokeOwner (expected : Nat) : OwnerM η IntegrationSnapshot := do
  let record ← consult fun w => w.loaded codec
  require (record.snapshot.revision = expected) revisionConflict
  require (record.snapshot.state ≠ .integrated) (.rejected .alreadyCommitted)
  if record.tombstone.any (·.acknowledged) then
    if record.snapshot.state = .published ∧ record.receipt.isSome then do
      let facts ← askChecked env.sourceFacts
      if ← consult fun w => w.sourceIsCurrentAsideFromStop codec record facts then do
        let settled ← finishReceipt codec env stop record false
        fail (.rejected (if settled.state = .integrated then .alreadyCommitted
          else .stopUnconfirmed))
      else return record.snapshot
    else return record.snapshot
  else askStop codec env stop record

def revokeObserved (expected : IntegrationSnapshot) : Nat → OwnerM η IntegrationSnapshot
  | 0 => fail (.rejected .stopUnconfirmed)
  | attempts + 1 => do
    match ← consult fun w => w.load codec with
    | none => fail (.rejected .stopUnconfirmed)
    | some record => do
      require (record.snapshot.integrationId = expected.integrationId ∧
        record.snapshot.epoch = expected.epoch) (.rejected .stopUnconfirmed)
      match ← (revokeOwner codec env stop record.snapshot.revision).attempt with
      | .ok snapshot => return snapshot
      | .error e =>
        if e = revisionConflict then revokeObserved expected attempts else fail e

/-! ## Closed tasks -/

def settleClosedReserved : OwnerM η IntegrationSnapshot := do
  if record.receipt.isSome then finishReceipt codec env stop record true
  else
    match ← closedObservation codec env record .repair with
    | (none, record) => return record.snapshot
    | (some (.integrated _ receipt), record) => do
      validateReceipt record receipt
      let won := published record receipt
      let record ← saveRecord codec env { won with
        pause := none
        snapshot := { won.snapshot with resumeState := none, pauseReason := none } }
      finishReceipt codec env stop record true
    | (some _, record) => do
      let record ← block codec env record .workspaceMissing
      return record.snapshot

/-- The record of a closed task that waits for its target. -/
def closedBusy (due : Nat) : IntegrationRecord :=
  { record with
    pause := none
    phaseRetries := if record.phaseRetries.any (·.phase == .drive) then record.phaseRetries
      else record.phaseRetries ++ [⟨.drive, 0, .workerOffline, due⟩]
    snapshot := { record.snapshot with
      state := .retryWait
      resumeState := some .published
      retryAtMillis := some due
      pauseReason := none } }

def settleClosed : OwnerM η IntegrationSnapshot := do
  let now ← ask env.nowMillis
  if closedWaits record now then return record.snapshot
  else
    match ← reserve codec env record env.actor with
    | none => do
      let record ← saveRecord codec env (closedBusy record (saturatingAdd now 2000))
      return record.snapshot
    | some reservation => do
      let applied ← (do
        let record ← saveRecord codec env { record with actor := some env.actor }
        settleClosedReserved codec env stop record : OwnerM η IntegrationSnapshot).attempt
      releaseReservation codec reservation
      let latest ← consult fun w => w.loaded codec
      let latest ← (if latest.actor = some env.actor ∧
          latest.snapshot.integrationId = reservation.integrationId ∧
          latest.snapshot.epoch = reservation.epoch then
        saveRecord codec env (unclaimed latest)
      else pure latest)
      discard (applied : OwnerM η IntegrationSnapshot)
      return latest.snapshot

/-! ## Driving -/

/-- What the queue says of an auxiliary turn goes on from what the record holds. -/
def observationFollows (o : IntegrationTurnObservation) : Prop :=
  o.turnId = aux.turnId ∧ (aux.queuePosition.isSome → o.queuePosition = aux.queuePosition) ∧
    (aux.accepted = true → o.accepted = true) ∧ (aux.completed = true → o.completed = true)

instance (aux : IntegrationAuxiliaryIntent) (o : IntegrationTurnObservation) :
    Decidable (observationFollows aux o) := inferInstanceAs (Decidable (_ ∧ _))

def observedAuxiliaries (index : Nat) (o : IntegrationTurnObservation) :
    List IntegrationAuxiliaryIntent :=
  record.auxiliaries.modify index fun aux => { aux with
    queuePosition := o.queuePosition, accepted := o.accepted, completed := o.completed }

def observed (index : Nat) (o : IntegrationTurnObservation) : IntegrationRecord :=
  { record with
    auxiliaries := observedAuxiliaries record index o
    admissionDeadlineMillis := if o.accepted then none else record.admissionDeadlineMillis
    remainingAdmissionMillis := if o.accepted then none else record.remainingAdmissionMillis }

def observeAuxiliary (source : TurnId) : OwnerM η Unit := do
  let w ← Prog.get
  if w.policy.isNone then return ()
  else
    match ← consult fun w => w.load codec with
    | none => return ()
    | some record =>
      match record.auxiliaries.findIdx? (·.turnId == source) with
      -- A turn of another epoch is one that was prepared.
      | none => discard (consult fun w => w.loadPrepared codec source)
      | some index => do
        let o ← askChecked fun n => env.observe n source
        o.validate
        match record.auxiliaries[index]? with
        | none => return ()
        | some aux => do
          require (observationFollows aux o) invalid
          if aux.completed = o.completed ∧ aux.accepted = o.accepted ∧
              aux.queuePosition = o.queuePosition then return ()
          else do
            let now ← ask env.nowMillis
            discard (saveRecord codec env { observed record index o with readyAtMillis := now })

/-- What the checks of an auxiliary turn forbid. -/
def auxiliaryChecks (source checks : List ReportedCheck) : Option IntegrationCode :=
  if checks.any fun c => c.status == .fail || c.status == .error then some .checksFailed
  else if source ≠ [] ∧ (checks = [] ∨ checks.any (·.status != .pass) = true) then
    some .checksNotRun
  else none

def endedDone (facts : IntegrationTaskFacts) : Bool :=
  facts.ordinary.status.turns.getLast?.any fun turn => turn.turnId == aux.turnId &&
    turn.terminal.isSome && turn.outcome == some .done

def acceptAuxiliary (facts : IntegrationTaskFacts) : OwnerM η IntegrationSnapshot := do
  let record ← saveRecord codec env record
  if facts.runnerPresent then return record.snapshot
  else if !endedDone aux facts then do
    let record ← block codec env record .resolveBlocked
    return record.snapshot
  else
    match auxiliaryChecks record.sourceChecks facts.ordinary.reportedChecks with
    | some code => do
      let record ← block codec env record code
      return record.snapshot
    | none =>
      hostPhase codec env stop { record with
        snapshot := { record.snapshot with verification := purposeVerification aux.purpose } }
        .acceptTurn

def withDeadline (o : IntegrationTurnObservation) : OwnerM η IntegrationRecord := do
  if record.admissionDeadlineMillis.isNone ∧ o.accepted = false then do
    let stamp ← ask env.nowMillis
    let now ← ask env.nowMillis
    return { record with
      admissionDeadlineMillis := some (saturatingAdd now auxiliaryAdmissionMillis)
      snapshot := { record.snapshot with updatedAtMillis := stamp } }
  else return record

/-- The record once the turn is queued; the queue may have stored another one. -/
def enqueueAuxiliary (prepared : PreparedIntegrationTurn) (o : IntegrationTurnObservation) :
    OwnerM η IntegrationRecord := do
  if o.queuePosition.isSome then return record
  else do
    let turn ← askChecked fun n => env.enqueue n prepared
    require (turn = aux.turnId) invalid
    let record ← consult fun w => w.loaded codec
    prepared.validateFor codec record
    return record

def admitAuxiliary (index : Nat) (aux : IntegrationAuxiliaryIntent)
    (prepared : PreparedIntegrationTurn) (o : IntegrationTurnObservation) :
    OwnerM η IntegrationSnapshot := do
  match ← permit codec env stop record .auxiliaryAdmission with
  | (false, record) => return record.snapshot
  | (true, record) => do
    let record ← withDeadline env record o
    let now ← ask env.nowMillis
    if record.admissionDeadlineMillis.any (· ≤ now) then do
      let record ← block codec env record .turnQueueTimeout
      return record.snapshot
    else do
      let record ← release codec record
      let record ← saveRecord codec env record
      match ← revokeSuperseded codec env stop record with
      | (true, record) => return record.snapshot
      | (false, record) => do
        let record ← enqueueAuxiliary codec env record aux prepared o
        let o ← askChecked fun n => env.observe n aux.turnId
        o.validate
        let record ← saveRecord codec env { record with
          auxiliaries := observedAuxiliaries record index o
          admissionDeadlineMillis := if o.accepted then none else record.admissionDeadlineMillis }
        match ← askChecked fun n => env.beginPhase n .auxiliaryAdmission with
        | .permit => return record.snapshot
        | .park pause => do
          let record ← parkRecord codec env record pause
          return record.snapshot

def driveAuxiliary : OwnerM η IntegrationSnapshot := do
  match record.auxiliaries.getLast? with
  | none => fail invalid
  | some aux =>
    match ← consult fun w => w.loadPrepared codec aux.turnId with
    | none => fail invalid
    | some prepared => do
      prepared.validateFor codec record
      let o ← askChecked fun n => env.observe n aux.turnId
      o.validate
      require (observationFollows aux o) invalid
      let index := record.auxiliaries.length - 1
      if o.completed then acceptAuxiliary codec env stop (observed record index o) aux facts
      else admitAuxiliary codec env stop (observed record index o) index aux prepared o

/-- The step of the host that a state asks for. A push whose answer was lost always
looks at the target first. -/
def stateStep : Option IntegrationStep :=
  match record.snapshot.state with
  | .pending | .fetching | .pushing => some .fetch
  | .resolving | .verifying => some .prepare
  | .commitReady =>
    if record.candidates.getLast?.any (·.mergeOid.isSome) then some .push else some .build
  | _ => none

def currentAuxiliary : Option IntegrationAuxiliaryIntent :=
  record.auxiliaries.getLast?.filter (·.attempt == record.snapshot.attempts)

/-- Restore a record from a pause and from a backoff that is over; whether it may go on. -/
def resumeDue : OwnerM η (Bool × IntegrationRecord) := do
  let record ← (if record.snapshot.state = .parked then resumeRecord codec env record
    else pure record)
  if record.snapshot.state = .retryWait then do
    let now ← ask env.nowMillis
    if record.snapshot.retryAtMillis.any (now < ·) then return (false, record)
    else do
      let record ← resumeRecord codec env record
      return (true, record)
  else return (true, record)

def driveRecord : OwnerM η IntegrationSnapshot :=
  if (record.snapshot.state = .resolving ∨ record.snapshot.state = .verifying) ∧
      ((currentAuxiliary record).any fun aux =>
        purposeStatus aux.purpose == record.snapshot.state) = true then
    driveAuxiliary codec env stop record facts
  else if record.snapshot.state = .published then finishReceipt codec env stop record false
  else
    match stateStep record with
    | none => fail invalid
    | some step => hostPhase codec env stop record step

/-- Whether another actor still holds the record; one that has exited gives it up. -/
def claimRecord : OwnerM η (Bool × IntegrationRecord) := do
  match record.actor with
  | none => return (true, record)
  | some actor =>
    if actor = env.actor then return (true, record)
    else do
      let exited ← ask env.exited
      if exited actor then do
        let record ← release codec record
        return (true, record)
      else return (false, record)

/-- Drive the open cycle of a record that nothing stops. -/
def driveOpen : OwnerM η IntegrationSnapshot := do
  match ← claimRecord codec env record with
  | (false, record) => return record.snapshot
  | (true, record) => do
    let record ← (if record.snapshot.state = .resolving ∨ record.snapshot.state = .verifying ∨
        record.snapshot.state = .parked then
      match currentAuxiliary record with
      | none => pure record
      | some aux => do
        observeAuxiliary codec env aux.turnId
        consult fun w => w.loaded codec
    else pure record)
    match ← permit codec env stop record .drive with
    | (false, record) => return record.snapshot
    | (true, record) =>
      match ← resumeDue codec env record with
      | (false, record) => return record.snapshot
      | (true, record) => driveRecord codec env stop record facts

/-- The source of a cycle can no longer be integrated. -/
def sourceGone : Bool :=
  !facts.sessionImportComplete || facts.submissionPending ||
    facts.ordinary.status.state == .lost || facts.ordinary.status.state == .abandoned

def cycleOver : Bool :=
  record.snapshot.state == .integrated || record.snapshot.state == .revoked

def driveOnce : OwnerM η IntegrationSnapshot := do
  let record ← consult fun w => w.loaded codec
  let facts ← askChecked env.facts
  if facts.ordinary.status.state = .closed ∧ cycleOver record = false then
    match ← claimRecord codec env record with
    | (false, record) => return record.snapshot
    | (true, record) => settleClosed codec env stop record
  else if record.tombstone.any (!·.acknowledged) = true ∨ facts.stopRequested = true ∨
      facts.closePending = true then stop record.snapshot
  else if ← (if cycleOver record then pure false else do
      return !(← consult fun w => w.ownerSourceIsCurrent codec record facts)) then
    stop record.snapshot
  else if cycleOver record = true ∨ record.snapshot.state = .blocked then return record.snapshot
  else if record.sourceChecks.any fun c => c.status == .fail || c.status == .error then do
    let record ← block codec env record .checksFailed
    return record.snapshot
  else if sourceGone facts then do
    let record ← block codec env record .workspaceMissing
    return record.snapshot
  else driveOpen codec env stop record facts

end

/-- A stop may notice, while it imports a won push, that the cycle was superseded, and
stop it once more. Each nesting takes one unit of `depth`. -/
def revokeForStop : Nat → IntegrationSnapshot → OwnerM η IntegrationSnapshot
  | 0, _ => fail (.failed "DEPTH")
  | depth + 1, expected => revokeObserved codec env (revokeForStop depth) expected 3

def driveCycle (depth : Nat) : OwnerM η IntegrationSnapshot :=
  driveOnce codec env (revokeForStop codec env depth)

def revokeCycle (depth expected : Nat) : OwnerM η IntegrationSnapshot :=
  revokeOwner codec env (revokeForStop codec env depth) expected

end

end MacWorker.Integration
