import MacWorker.Integration.Contracts
import MacWorker.Lib.Durable

/-! # The host of an integration

One bounded phase of an integration on the worker that holds the task: the policy, the
record of the cycle, the revocation that precedes any phase, and the preparations of
auxiliary turns are files beside the task; every answer of Git is an input. A request
holds the fence of its task to its answer, so requests of one task follow one another; it
may be cut off after any write. -/
namespace MacWorker.Integration
open Fallible Durable
open Prog (require fail)
open Dag (IntegrationStatus IntegrationCode)

/-! ## State -/

structure HostTaskMeta where
  taskId : TaskId
  projectId : String
  closePolicy : ClosePolicy
  /-- The task was submitted from uncommitted work. -/
  wip : Bool
  gitIdentity : GitIdentity
  title : String
  /-- The task publishes by pushing a branch, and which one. -/
  publishPush : Bool
  publishBranch : Option BranchName

structure HostTaskStatus extends TaskStatus where
  reportedChecks : List ReportedCheck

/-- A stop that precedes the first phase of its cycle. -/
structure HostRevokeEvidence where
  request : HostIntegrationRequest
  head : Option BaseOid
  turn : Option TurnId
  acknowledged : Bool

/-- An auxiliary turn whose result the host took over. -/
structure Acceptance where
  candidate : IntegrationCandidate
  auxiliary : IntegrationAuxiliaryIntent
  prepared : PreparedIntegrationTurn
  status : HostTaskStatus
  sourceChecks : List ReportedCheck
  observedTarget : BaseOid

/-- A push that reached Git: the record stored at that moment, and what Git said of
the tree of the candidate's source. -/
structure PushAttempt where
  stored : Option IntegrationRecord
  candidate : IntegrationCandidate
  sourceTree : Checked String

/-- The files of one task on its host. -/
structure HostState where
  info : HostTaskMeta
  status : HostTaskStatus
  /-- The task holds a live execution lease. -/
  live : Bool
  policy : Option FrozenIntegrationPolicy
  record : Option IntegrationRecord
  evidence : Option HostRevokeEvidence
  prepared : TurnId → Option PreparedIntegrationTurn
  /-- The pushes that reached Git, newest first. This and `accepts` are history: no
  request reads them. -/
  pushes : List PushAttempt
  accepts : List Acceptance

def HostState.setRecord (s : HostState) (record : IntegrationRecord) : HostState :=
  { s with record := some record }

theorem HostState.setRecord_self {s : HostState} {record : IntegrationRecord}
    (h : s.record = some record) : s.setRecord record = s := by
  rw [setRecord, ← h]

def HostState.logPush (s : HostState) (candidate : IntegrationCandidate)
    (sourceTree : Checked String) : HostState :=
  { s with pushes := ⟨s.record, candidate, sourceTree⟩ :: s.pushes }

def HostState.logAcceptance (s : HostState) (acceptance : Acceptance) : HostState :=
  { s with accepts := acceptance :: s.accepts }

def HostState.setHead (s : HostState) (head : BaseOid) : HostState :=
  { s with status := { s.status with headOid := some head } }

inductive PushOutcome where
  | integrated (receipt : IntegrationReceipt)
  | moved (observed : BaseOid)

/-- Everything one request is told by Git, the clock and the lock. -/
structure HostOracle where
  nowMillis : Nat
  fenceHeld : Bool
  fetchTarget : IntegrationRecord → Checked BaseOid
  mirror : Checked Unit
  isAncestor : BaseOid → BaseOid → Checked Bool
  settle : IntegrationRecord → Checked (Option IntegrationReceipt)
  settleTarget : IntegrationRecord → BaseOid → Checked (Option IntegrationReceipt)
  restoreSource : IntegrationRecord → IntegrationCandidate → Checked Unit
  untracked : IntegrationRecord → BaseOid → Checked (List String)
  (requireCleanSource assertWorkspace : IntegrationRecord → IntegrationCandidate → Checked Unit)
  /-- The merged tree and the paths left in conflict. -/
  mergeTree : IntegrationCandidate → Checked (BaseOid × List String)
  /-- Create the merge commit of a candidate with a tree, and pin it. -/
  commitTree : IntegrationCandidate → Checked BaseOid
  tree : BaseOid → Checked String
  prepareWorkspace :
    IntegrationRecord → IntegrationCandidate → IntegrationTurnPurpose → Checked Unit
  validateAcceptedWorkspace : IntegrationRecord → IntegrationCandidate → Checked Unit
  /-- The checks of an accepted workspace that precede its commit. -/
  checkWorkspace : IntegrationRecord → IntegrationCandidate → IntegrationTurnPurpose → Checked Unit
  /-- The tree an agent resolved the conflicts to. -/
  resolvedTree : IntegrationCandidate → Checked BaseOid
  /-- Write down the state of an accepted workspace. -/
  keepWorkspace : IntegrationRecord → IntegrationCandidate → Checked Unit
  push : IntegrationRecord → IntegrationCandidate → Checked PushOutcome
  /-- Move the task's branch and workspace to an integrated result. -/
  moveBranch : IntegrationRecord → IntegrationReceipt → Checked Unit
  integrationMessage : String → IntegrationRecord → String

abbrev HostM := Prog IntegrationError HostState

variable (codec : Codec)

/-! ## Sidecar files -/

def load : HostM (Option IntegrationRecord) := do
  let s ← Prog.get
  match s.record with
  | none => return none
  | some record => do
    record.validate codec
    require (record.taskId = s.info.taskId ∧ record.policy.projectId = s.info.projectId) invalid
    return some record

variable (record : IntegrationRecord)

def save : HostM Unit := do
  record.validate codec
  Prog.write (·.setRecord record)

def HostRevokeEvidence.validate (proof : HostRevokeEvidence) (task : TaskId) : Checked Unit := do
  proof.request.validate codec
  ensure (proof.request.taskId = task) invalid
  match proof.request.action with
  | .revoke _ => .ok ()
  | _ => .error invalid

def revokeEvidence : HostM (Option HostRevokeEvidence) := do
  let s ← Prog.get
  match s.evidence with
  | none => return none
  | some proof => do
    proof.validate codec s.info.taskId
    return some proof

def saveRevokeEvidence (proof : HostRevokeEvidence) : HostM Unit := do
  proof.request.validate codec
  Prog.write fun s => { s with evidence := some proof }

def armPolicy (policy : FrozenIntegrationPolicy) : HostM Unit := do
  let s ← Prog.get
  match s.policy with
  | some old => require (old = policy) invalid
  | none => do
    policy.validate codec
    Prog.write fun s => { s with policy := some policy }

/-- The last turn of the task that is not an auxiliary turn of an integration. -/
def HostState.latestOrdinarySource (s : HostState) : Option TurnId :=
  (s.status.turns.reverse.find? fun turn => (s.prepared turn.turnId).isNone).map (·.turnId)

/-- The cycle of a record is over: stopped with no push in doubt, or imported. -/
def IntegrationRecord.retired : Bool :=
  (record.tombstone.any (·.acknowledged) && record.pushIntent.all (!·.uncertain)) ||
    record.receipt.any (·.imported)

def projectReceipt : IntegrationRecord :=
  match record.receipt with
  | none => record
  | some receipt =>
    { record with
      snapshot := { record.snapshot with
        state := if receipt.imported then .integrated else .published
        mergeOid := receipt.mergeOid
        observedTargetOid := some receipt.targetHead
        disposition := some receipt.disposition
        resumeState := none
        pauseReason := none
        retryAtMillis := none
        blockedCode := none
        retryExhausted := false }
      pause := none
      pushIntent := record.pushIntent.map fun intent => { intent with uncertain := false } }

def keepReceipt (receipt : IntegrationReceipt) : IntegrationRecord :=
  projectReceipt { record with receipt := some receipt }

def sameFrozenSource (old next : IntegrationRecord) : Bool :=
  old.snapshot.sourceHead == next.snapshot.sourceHead &&
    old.snapshot.sourceTurnId == next.snapshot.sourceTurnId &&
    old.sourceRevision == next.sourceRevision && old.cycleBase == next.cycleBase &&
    old.sourceChecks == next.sourceChecks && old.sourceSummary == next.sourceSummary &&
    old.gitIdentity == next.gitIdentity

def ReportedCheckStatus.bad (status : ReportedCheckStatus) : Bool :=
  status == .fail || status == .error

def validateSourceChecks (checks : List ReportedCheck) : Checked Unit :=
  ensure (checks.any (·.status.bad) = false) (.rejected .checksFailed)

def validateChecks (source auxiliary : List ReportedCheck) : Checked Unit := do
  ensure ((source ++ auxiliary).any (·.status.bad) = false) (.rejected .checksFailed)
  ensure (source = [] ∨ (auxiliary ≠ [] ∧ auxiliary.all (·.status == .pass) = true))
    (.rejected .checksNotRun)

/-! ## The record of a request and the stored one -/

def mergeAuxiliary (incoming : List IntegrationAuxiliaryIntent)
    (stored : IntegrationAuxiliaryIntent) : Checked (List IntegrationAuxiliaryIntent) :=
  match splitFirst (·.turnId == stored.turnId) incoming with
  | none => .ok (incoming ++ [stored])
  | some (before, aux, after) => do
    ensure (aux.preparedBinding = stored.preparedBinding) invalid
    ensure (aux.queuePosition.isSome → stored.queuePosition.isSome →
      aux.queuePosition = stored.queuePosition) invalid
    return before ++ { aux with
      queuePosition := aux.queuePosition.or stored.queuePosition
      accepted := aux.accepted || stored.accepted
      completed := aux.completed || stored.completed } :: after

/-- The receipts kept of earlier cycles, with the one of `old` added. -/
def archive (receipts : List IntegrationReceipt) (old : Option IntegrationReceipt) :
    List IntegrationReceipt :=
  match old with
  | none => receipts
  | some receipt =>
    let kept := if receipts.contains receipt then receipts else receipts ++ [receipt]
    if maxArchivedReceipts < kept.length then kept.drop 1 else kept

/-- The first record of another cycle, or of another epoch of the stored one. -/
def succeedCycle (old next : IntegrationRecord) (step : IntegrationStep) :
    Checked IntegrationRecord := do
  let sameId := old.snapshot.integrationId = next.snapshot.integrationId
  ensure (sameId → sameFrozenSource old next = true) invalid
  ensure (old.retired = true ∧ (step = .fetch ∨ step = .prepare) ∧ next.candidates = [] ∧
    next.auxiliaries = [] ∧ next.pushIntent = none ∧ next.receipt = none ∧
    next.tombstone = none ∧
    (sameId → old.snapshot.epoch + 1 < 2 ^ 32 ∧ old.snapshot.epoch + 1 = next.snapshot.epoch))
    invalid
  return { next with
    archivedReceipts := archive next.archivedReceipts old.receipt
    snapshot := { next.snapshot with verification := .sourceAgentReportOnly } }

/-- The import that a request reports of the stored receipt. -/
def importAck (incoming stored : Option IntegrationReceipt) : Checked Bool :=
  match incoming, stored with
  | some incoming, some stored => do
    ensure (incoming = { stored with imported := incoming.imported }) invalid
    return incoming.imported
  | _, _ => return false

/-- Another step of the stored cycle: what the host recorded stays. -/
def continueCycle (old next : IntegrationRecord) (step : IntegrationStep) :
    Checked IntegrationRecord := do
  ensure (sameFrozenSource old next = true ∧ (old.tombstone.isSome → step = .repair)) invalid
  let imported ← importAck next.receipt old.receipt
  let auxiliaries ← old.auxiliaries.foldlM mergeAuxiliary next.auxiliaries
  return { next with
    candidates := old.candidates
    auxiliaries := auxiliaries
    pushIntent := old.pushIntent
    receipt := old.receipt.map fun receipt =>
      { receipt with imported := receipt.imported || imported }
    tombstone := old.tombstone
    snapshot := { next.snapshot with verification := old.snapshot.verification } }

/-- The record a step works on, from the stored one and the one it was sent. -/
def succeed (old : Option IntegrationRecord) (next : IntegrationRecord) (step : IntegrationStep) :
    Checked IntegrationRecord :=
  match old with
  | none => .ok { next with
      receipt := none
      tombstone := none
      snapshot := { next.snapshot with verification := .sourceAgentReportOnly } }
  | some old => do
    let sameCycle := old.snapshot.integrationId = next.snapshot.integrationId ∧
      old.snapshot.epoch = next.snapshot.epoch
    ensure (old.policy = next.policy ∧
      (sameCycle → old.snapshot.revision ≤ next.snapshot.revision)) invalid
    if sameCycle then continueCycle old next step else succeedCycle old next step

/-- The snapshot fields that follow from the rest of the record. -/
def refresh : IntegrationRecord :=
  projectReceipt { record with
    snapshot := { record.snapshot with
      attempts := record.candidates.length
      mergeOid := record.candidates.getLast?.bind (·.mergeOid) } }

section
variable (git : HostOracle)

/-! ## Git work that writes the record -/

variable (request : HostIntegrationRequest) (step : IntegrationStep) (record : IntegrationRecord)
  (candidate : IntegrationCandidate) (policy : FrozenIntegrationPolicy)

def setLastCandidate : IntegrationRecord :=
  { record with candidates := record.candidates.dropLast ++ [candidate] }

/-- Freeze the tree of a candidate, then create and pin its merge. -/
def commitIn : HostM IntegrationCandidate := do
  git.mirror
  match candidate.treeOid, ← load codec with
  | some tree, some journal =>
    match journal.candidates.getLast? with
    | none => fail invalid
    | some frozen => do
      require (frozen.id = candidate.id ∧ frozen.treeOid.all (· = tree) = true) invalid
      save codec (setLastCandidate journal { frozen with treeOid := some tree })
      let oid ← git.commitTree candidate
      return { candidate with mergeOid := some oid }
  | _, _ => fail invalid

def merge : HostM IntegrationCandidate := do
  git.mirror
  let (tree, conflictPaths) ← git.mergeTree candidate
  validateConflictPaths codec conflictPaths
  let candidate := { candidate with conflictPaths := conflictPaths }
  if conflictPaths = [] then commitIn codec git { candidate with treeOid := some tree }
  else return candidate

/-- Take over the workspace an auxiliary turn left. -/
def acceptWorkspace (purpose : IntegrationTurnPurpose) : HostM IntegrationCandidate := do
  git.checkWorkspace record candidate purpose
  let candidate ← match purpose with
    | .verify => pure candidate
    | .resolve => do
      let tree ← git.resolvedTree candidate
      require (candidate.treeOid.all (· = tree) = true) invalid
      pure { candidate with treeOid := some tree }
  let candidate ← commitIn codec git candidate
  git.keepWorkspace record candidate
  return candidate

def repair (receipt : IntegrationReceipt) : HostM Unit := do
  git.moveBranch record receipt
  let result := receipt.mergeOid.getD receipt.targetHead
  let s ← Prog.get
  require (s.status.headOid = some record.snapshot.sourceHead ∨ s.status.headOid = some result)
    invalid
  Prog.write (·.setHead result)

/-! ## Stopping -/

def HostState.busy (s : HostState) : Bool := s.status.state == .active || s.live

/-- The evidence of a stop that a quiet task has confirmed. -/
def HostRevokeEvidence.acknowledge (proof : HostRevokeEvidence) (status : HostTaskStatus) :
    HostRevokeEvidence :=
  { proof with
    head := status.headOid
    turn := status.turns.getLast?.map (·.turnId)
    acknowledged := true }

def revokeBeforePhase (retained : Option IntegrationRecord) (evidence : Option HostRevokeEvidence) :
    HostM HostIntegrationResponse := do
  require (retained.all (·.retired) = true) (.rejected .stopUnconfirmed)
  let proof := (evidence.filter fun proof =>
      proof.request.integrationId == request.integrationId &&
        proof.request.epoch == request.epoch).getD ⟨request, none, none, false⟩
  require (proof.request = request) invalid
  saveRevokeEvidence codec proof
  let s ← Prog.get
  require (s.busy = false) (.rejected .stopUnconfirmed)
  saveRevokeEvidence codec (proof.acknowledge s.status)
  return .revoked (.forRequest request)

/-- The record of a cycle that was stopped before its push won. -/
def acknowledgeStop (tombstone : IntegrationTombstone) : IntegrationRecord :=
  { record with
    tombstone := some { tombstone with acknowledged := true }
    pushIntent := record.pushIntent.map fun intent => { intent with uncertain := false }
    snapshot := { record.snapshot with
      state := .revoked, resumeState := none, pauseReason := none }
    pause := none }

/-- The receipt of a cycle that is being stopped, looked up if a push may have won. -/
def stopReceipt : Checked (Option IntegrationReceipt) :=
  if record.receipt.isNone && record.pushIntent.isSome then
    (git.settle record).mapError fun _ => .rejected .stopUnconfirmed
  else .ok record.receipt

def revokeRecord (tombstone : IntegrationTombstone) (record : IntegrationRecord) :
    HostM HostIntegrationResponse := do
  require (record.snapshot.revision ≤ request.revision) invalid
  let record := { record with
    snapshot := { record.snapshot with revision := request.revision }
    tombstone := some tombstone }
  save codec record
  let s ← Prog.get
  require (s.busy = false) (.rejected .stopUnconfirmed)
  match ← stopReceipt git record with
  | some receipt => do
    save codec (keepReceipt record receipt)
    return .integrated (.forRequest request) receipt
  | none => do
    match record.candidates.getLast? with
    | some candidate => git.restoreSource record candidate
    | none => pure ()
    save codec (acknowledgeStop record tombstone)
    return .revoked (.forRequest request)

/-- The identity a stop may name: the stored cycle of the latest source, at its
epoch or later, or the cycle the latest source would start. -/
def revokeIdentity (request : HostIntegrationRequest) (retained : Option IntegrationRecord) :
    HostM Unit := do
  let s ← Prog.get
  match s.latestOrdinarySource with
  | none => fail invalid
  | some source =>
    match retained.filter fun r => some r.snapshot.integrationId == request.integrationId with
    | some record =>
      require (record.snapshot.sourceTurnId = source ∧ record.snapshot.epoch ≤ request.epoch)
        invalid
    | none =>
      match s.status.headOid with
      | none => fail invalid
      | some head => do
        let key ← policy.targetKey codec
        let id ← IntegrationId.derive codec request.taskId source head key
        require (some id = request.integrationId) invalid

def revoke (request : HostIntegrationRequest) (tombstone : IntegrationTombstone) :
    HostM HostIntegrationResponse := do
  let retained ← load codec
  revokeIdentity codec policy request retained
  let evidence ← revokeEvidence codec
  -- A delayed older stop must not lower the epoch of the fence.
  require (evidence.all (fun proof => proof.request.integrationId != request.integrationId ||
    proof.request.epoch ≤ request.epoch) = true) invalid
  match retained.filter fun r => some r.snapshot.integrationId == request.integrationId &&
      r.snapshot.epoch == request.epoch with
  | none => revokeBeforePhase codec request retained evidence
  | some record => revokeRecord codec git request tombstone record

/-! ## Steps -/

/-- The target moved away from the last candidate: put the source back and forget
what was verified. -/
def retireCandidate (target : BaseOid) : Checked IntegrationRecord :=
  match record.candidates.getLast? with
  | none => .ok record
  | some previous =>
    if previous.targetHead = target then .ok record
    else do
      ensure (record.candidates.length < maxCandidates) (.rejected .targetMovedExhausted)
      git.restoreSource record previous
      return { record with
        pushIntent := none
        snapshot := { record.snapshot with verification := .sourceAgentReportOnly } }

def newCandidate (title : String) (record : IntegrationRecord) (target : BaseOid) :
    Checked IntegrationCandidate := do
  let head := record.snapshot.sourceHead
  let untracked ← git.untracked record head
  return {
    id := ⟨record.snapshot.integrationId, record.snapshot.epoch, record.candidates.length + 1⟩
    targetHead := target
    sourceHead := head
    treeOid := none
    mergeOid := none
    message := git.integrationMessage title record
    identity := record.gitIdentity
    timestampMillis := git.nowMillis
    attributeSource := head
    ours := head
    theirs := target
    cleanH := ⟨BranchName.forTask record.taskId, head, untracked⟩
    conflictPaths := [] }

/-- The record with a candidate for `target` as its last one. -/
def ensureCandidate (target : BaseOid) : HostM IntegrationRecord := do
  if record.candidates.getLast?.any (·.targetHead = target) then return record
  else do
    let s ← Prog.get
    let candidate ← newCandidate git s.info.title record target
    git.requireCleanSource record candidate
    let record := { record with
      candidates := record.candidates ++ [candidate]
      snapshot := { record.snapshot with attempts := record.candidates.length + 1 } }
    save codec record
    return record

/-- The record with the work on its last candidate in it. -/
def presentCandidate : IntegrationRecord :=
  { setLastCandidate record candidate with
    snapshot := { record.snapshot with
      observedTargetOid := some candidate.targetHead
      mergeOid := candidate.mergeOid
      state := .commitReady } }

def IntegrationVerification.reported (v : IntegrationVerification) : Bool :=
  v == .verifyAgentReport || v == .resolveAgentReport

/-- The tree of a candidate, read back as text, differs from that of its source. -/
def treeDiffers : Checked Bool := do
  let source ← git.tree candidate.sourceHead
  match candidate.treeOid with
  | none => .error invalid
  | some tree => return source != tree.value

/-- A merge onto a moved target still needs an agent to look at it. -/
def needsVerification : Checked Bool :=
  if record.policy.verify = .movedTarget ∧ record.snapshot.verification.reported = false ∧
      candidate.targetHead ≠ record.cycleBase then
    treeDiffers git candidate
  else .ok false

def turnPurpose : Checked (Option IntegrationTurnPurpose) := do
  if candidate.conflictPaths ≠ [] ∧ candidate.mergeOid = none then return some .resolve
  else if ← needsVerification git record candidate then return some .verify
  else return none

def answerCandidate : HostM HostIntegrationResponse := do
  match ← turnPurpose git record candidate with
  | some purpose => do
    let record := { record with
      snapshot := { record.snapshot with state := purposeStatus purpose } }
    save codec record
    git.prepareWorkspace record candidate purpose
    return .needTurn (.forRequest request) candidate purpose
  | none => do
    if record.snapshot.verification = .sourceAgentReportOnly then
      git.requireCleanSource record candidate
    save codec record
    return .candidateReady (.forRequest request) candidate

/-- Fetch the target and bring a candidate for it as far as it goes without an agent. -/
def fetchStep : HostM HostIntegrationResponse := do
  let target ← git.fetchTarget record
  git.mirror
  require (← git.isAncestor record.cycleBase target) (.rejected .baseNotOnTarget)
  match ← git.settleTarget record target with
  | some receipt => do
    save codec (keepReceipt record receipt)
    return .integrated (.forRequest request) receipt
  | none => do
    let record ← retireCandidate git record target
    let record ← ensureCandidate codec git record target
    match record.candidates.getLast? with
    | none => fail invalid
    | some candidate => do
      git.assertWorkspace record candidate
      let candidate ← match candidate.mergeOid with
        | some _ => pure candidate
        | none => merge codec git candidate
      answerCandidate codec git request (presentCandidate record candidate) candidate

def pushAllowed : Checked Unit := do
  ensure (candidate.conflictPaths = [] ∨ record.snapshot.verification = .resolveAgentReport)
    (.rejected .resolutionIncomplete)
  ensure ((← needsVerification git record candidate) = false) (.rejected .resolveBlocked)
  if record.snapshot.verification.reported then
    git.validateAcceptedWorkspace record candidate

def pushIntent : Checked IntegrationPushIntent :=
  match record.pushIntent with
  | some intent => .ok { intent with uncertain := true }
  | none =>
    match candidate.mergeOid with
    | none => .error invalid
    | some mergeOid => .ok ⟨candidate.id, candidate.targetHead, mergeOid, git.nowMillis, true⟩

def intendPush (intent : IntegrationPushIntent) : IntegrationRecord :=
  { record with pushIntent := some intent }

def pushStep : HostM HostIntegrationResponse := do
  match record.candidates.getLast? with
  | none => fail invalid
  | some candidate => do
    pushAllowed git record candidate
    let intent ← pushIntent git record candidate
    let record := intendPush record intent
    save codec record
    Prog.write (·.logPush candidate (git.tree candidate.sourceHead))
    match ← git.push record candidate with
    | .integrated receipt => do
      save codec (keepReceipt record receipt)
      return .integrated (.forRequest request) receipt
    | .moved observed => return .targetMoved (.forRequest request) observed

/-- A build whose candidate is already merged and needs no agent. -/
def built : Bool :=
  candidate.mergeOid.isSome && (record.snapshot.verification.reported ||
    (candidate.conflictPaths == [] &&
      (record.policy.verify == .never || candidate.targetHead == record.cycleBase)))

/-- The auxiliary turn whose result a candidate can take: the last one of its
attempt that was accepted and completed. -/
def acceptedAuxiliary : Option IntegrationAuxiliaryIntent :=
  record.auxiliaries.reverse.find? fun aux =>
    aux.attempt == candidate.id.attempt && aux.completed && aux.accepted

/-- The auxiliary turn is the task's last turn and ended done, with its checks passed. -/
def acceptable (aux : IntegrationAuxiliaryIntent) (prepared : PreparedIntegrationTurn)
    (status : HostTaskStatus) : Checked Unit := do
  prepared.validateFor codec record
  let binding ← prepared.bindingDigest codec
  ensure (binding = aux.preparedBinding ∧ prepared.followup.turnId = aux.turnId ∧
    (status.turns.getLast?.any fun last => last.turnId == aux.turnId &&
      last.terminal == some .succeeded) = true ∧
    status.lastOutcome = some .done) (.rejected .resolveBlocked)
  validateChecks record.sourceChecks status.reportedChecks

def acceptStep : HostM HostIntegrationResponse := do
  match record.candidates.getLast? with
  | none => fail invalid
  | some candidate =>
    if step = .build ∧ built record candidate = true then
      return .candidateReady (.forRequest request) candidate
    else
      let s ← Prog.get
      match acceptedAuxiliary record candidate with
      | none => fail invalid
      | some aux =>
        match s.prepared aux.turnId with
        | none => fail invalid
        | some prepared => do
          acceptable codec record aux prepared s.status
          let observed ← git.fetchTarget record
          if observed ≠ candidate.targetHead then do
            save codec { record with
              snapshot := { record.snapshot with verification := .sourceAgentReportOnly } }
            return .targetMoved (.forRequest request) observed
          else do
            Prog.write (·.logAcceptance
              ⟨candidate, aux, prepared, s.status, record.sourceChecks, observed⟩)
            let candidate ← acceptWorkspace codec git record candidate prepared.purpose
            save codec { setLastCandidate record candidate with
              snapshot := { record.snapshot with
                state := .commitReady
                mergeOid := candidate.mergeOid
                verification := purposeVerification prepared.purpose } }
            return .candidateReady (.forRequest request) candidate

/-- The receipt a repair finds. A closed task whose target is gone has none. -/
def repairReceipt (status : HostTaskStatus) : Checked (Option IntegrationReceipt) :=
  match record.receipt with
  | some receipt => .ok (some receipt)
  | none =>
    match git.settle record with
    | .error e =>
      if status.state = .closed ∧ e = .rejected .targetMissing then .ok none else .error e
    | .ok receipt => .ok receipt

def repairStep : HostM HostIntegrationResponse := do
  let s ← Prog.get
  match ← repairReceipt git record s.status with
  | none =>
    if s.status.state = .closed then do
      save codec { record with
        snapshot := { record.snapshot with
          state := .blocked
          blockedCode := some .workspaceMissing
          resumeState := none
          pauseReason := none
          retryAtMillis := none }
        pause := none }
      return .blocked (.forRequest request) .workspaceMissing false
    else fail (.rejected .workspaceMissing)
  | some receipt => do
    let record := keepReceipt record receipt
    save codec record
    repair git record receipt
    save codec record
    return .integrated (.forRequest request) receipt

/-- The checks that precede any use of the stored record. -/
def admitStep : HostM Unit := do
  let evidence ← revokeEvidence codec
  require (evidence.all (fun proof => proof.request.integrationId != request.integrationId ||
    proof.request.epoch < request.epoch) = true) (.rejected .stopUnconfirmed)
  let s ← Prog.get
  require (s.status.state = .open ∨ step = .repair) (.rejected .workspaceMissing)
  require (s.live = false) invalid
  require (s.status.headOid = some record.snapshot.sourceHead ∨ step = .repair) invalid
  -- A later ordinary turn retires every source before it.
  require (step = .repair ∨ s.latestOrdinarySource = some record.snapshot.sourceTurnId) invalid
  require (record.gitIdentity = s.info.gitIdentity) invalid

def takeUp : HostM IntegrationRecord := do
  admitStep codec request step record
  let old ← load codec
  succeed old record step

/-- The work of a step on its stored record; a finished cycle only repeats its receipt. -/
def performStep : HostM HostIntegrationResponse :=
  match record.receipt with
  | some receipt =>
    if step = .repair then repairStep codec git request record
    else return .integrated (.forRequest request) receipt
  | none =>
    match step with
    | .fetch | .prepare => fetchStep codec git request record
    | .push => pushStep codec git request record
    | .acceptTurn | .build => acceptStep codec git request step record
    | .repair => repairStep codec git request record

def runStep : HostM HostIntegrationResponse := do
  let next := refresh (← takeUp codec request step record)
  if step ≠ .repair then validateSourceChecks next.sourceChecks
  save codec next
  performStep codec git request step next

/-- The receipt of a cycle that is being read, looked up if its push is in doubt. -/
def readReceipt : Checked (Option IntegrationReceipt) :=
  if record.receipt.isNone && record.pushIntent.any (·.uncertain) then git.settle record
  else .ok record.receipt

def readStep : HostM HostIntegrationResponse := do
  match ← load codec with
  | none => return .progress (.forRequest request) none
  | some record => do
    require (some record.snapshot.integrationId = request.integrationId ∧
      record.snapshot.epoch = request.epoch ∧ record.snapshot.revision ≤ request.revision) invalid
    let record := { record with
      snapshot := { record.snapshot with revision := request.revision } }
    match ← readReceipt git record with
    | some receipt => do
      save codec (keepReceipt record receipt)
      return .integrated (.forRequest request) receipt
    | none => return .progress (.forRequest request) (some record.snapshot)

/-! ## One request -/

def requestPolicy : HostM FrozenIntegrationPolicy := do
  match request.action with
  | .arm policy => return policy
  | .step _ record => return record.policy
  | _ =>
    match (← Prog.get).policy with
    | some policy => return policy
    | none => fail invalid

def admitTask (request : HostIntegrationRequest) : HostM Unit := do
  require (git.fenceHeld = false) (.rejected .stopUnconfirmed)
  let s ← Prog.get
  require (request.taskId = s.info.taskId ∧ policy.projectId = s.info.projectId) (.failed "IO")
  require (s.info.closePolicy = .never) invalid
  require (s.info.wip = false) (.rejected .wipBase)
  let key ← policy.targetKey codec
  require (codec.originProject key.origin = s.info.projectId) invalid
  let publishBranch := s.info.publishBranch.getD (BranchName.forTask request.taskId)
  require (s.info.publishPush = false ∨ publishBranch ≠ policy.target)
    (.rejected .publishTargetCollision)
  match request.action with
  | .arm _ => require (s.status.state ≠ .closed ∧ s.status.state ≠ .abandoned ∧
      s.status.state ≠ .lost) (.rejected .workspaceMissing)
  | _ => pure ()

def execute : HostM HostIntegrationResponse := do
  request.validate codec
  let policy ← requestPolicy request
  admitTask codec git policy request
  armPolicy codec policy
  let response ← match request.action with
    | .read => readStep codec git request
    | .revoke tombstone => revoke codec git policy request tombstone
    | .arm _ => pure (.progress (.forRequest request) none)
    | .step step record => runStep codec git request step record
  response.validateFor codec request
  return response

end

end MacWorker.Integration
