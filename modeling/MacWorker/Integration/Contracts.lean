import MacWorker.Dag.Gate
import Mathlib.Tactic.MkIffOfInductiveProp

/-! # Integration contracts

The records that the owner of a task and the worker host exchange about one integration,
each with the validation it passes before it is written or sent: the frozen policy, the
public snapshot, merge candidates, prepared auxiliary turns, receipts, stop requests, and
the private record that holds them.

An integration id is a digest of the task, the source turn, its head and the target; it is
modelled by these four values, so that equal ids mean equal sources. What the source
delegates to other components is a field of `Codec`. -/
namespace MacWorker.Integration
open Fallible
open Dag (IntegrationStatus IntegrationCode)

/-- An error, told apart by its public code. -/
inductive IntegrationError where
  | rejected (code : IntegrationCode)
  /-- A code outside the integration catalogue. -/
  | failed (code : String)
  deriving DecidableEq

def invalid : IntegrationError := .rejected .stateInvalid

def integrationUnavailable : IntegrationError := .rejected .unavailable

def revisionConflict : IntegrationError := .failed "TASK_REVISION_CONFLICT"

abbrev Checked := Except IntegrationError

def integrationSchemaVersion : Nat := 1
def currentProtocolVersion : Nat := 7
def maxTargetBytes : Nat := 255
def maxTargetDisplayBytes : Nat := 128
def maxPrivateRecordBytes : Nat := 64 * 1024
def maxCandidates : Nat := 3
def maxAuxiliaryIntents : Nat := 5
def maxArchivedReceipts : Nat := 8
def maxResolveTurns : Nat := 2
def maxVerifyTurns : Nat := 3
def maxPromptBytes : Nat := 16 * 1024
def maxConflictPaths : Nat := 256
def maxConflictPathBytes : Nat := 1024
def maxMessageSummaryBytes : Nat := 1024
def maxCommitMessageBytes : Nat := 2048
def auxiliaryAdmissionMillis : Nat := 600000
def transportRetryDelaysMillis : List Nat := [2000, 10000, 30000]

/-! ## Names and identities -/

structure BranchName where
  value : String
  deriving DecidableEq

def BranchName.forTask (task : TaskId) : BranchName := ⟨"task/" ++ simple task.uuid⟩

structure TargetKey where
  origin : String
  branch : BranchName
  deriving DecidableEq

structure IntegrationId where
  task : TaskId
  source : TurnId
  head : BaseOid
  key : TargetKey
  deriving DecidableEq

/-- Revisions are 64-bit and never wrap. -/
def nextRevision (revision : Nat) : Checked Nat :=
  if revision + 1 < 2 ^ 64 then .ok (revision + 1) else .error invalid

structure GitIdentity where
  (name email : String)
  deriving DecidableEq

inductive ClosePolicy where
  | done
  | never
  deriving DecidableEq

inductive VerifyPolicy where
  | never
  | movedTarget
  deriving DecidableEq

inductive IntegrationBaseKind where
  | committed
  | fromTask
  deriving DecidableEq

inductive IntegrationPauseReason where
  | controllerDrained
  | controllerDisabled
  | helperUnavailable
  deriving DecidableEq

inductive IntegrationDisposition where
  | merged
  | alreadyIntegrated
  deriving DecidableEq

inductive IntegrationVerification where
  | sourceAgentReportOnly
  | resolveAgentReport
  | verifyAgentReport
  deriving DecidableEq

inductive IntegrationTurnPurpose where
  | resolve
  | verify
  deriving DecidableEq

def purposeStatus : IntegrationTurnPurpose → IntegrationStatus
  | .resolve => .resolving
  | .verify => .verifying

def purposeVerification : IntegrationTurnPurpose → IntegrationVerification
  | .resolve => .resolveAgentReport
  | .verify => .verifyAgentReport

inductive IntegrationStep where
  | fetch
  | prepare
  | acceptTurn
  | build
  | push
  | repair
  deriving DecidableEq

inductive IntegrationPhase where
  | drive
  | fetch
  | prepare
  | acceptTurn
  | build
  | push
  | repair
  | auxiliaryAdmission
  deriving DecidableEq

inductive ReportedCheckStatus where
  | pass
  | fail
  | notRun
  | error
  deriving DecidableEq

structure ReportedCheck where
  name : String
  status : ReportedCheckStatus
  deriving DecidableEq

/-! ## Data -/

structure FrozenIntegrationPolicy where
  schemaVersion : Nat
  origin : String
  target : BranchName
  verify : VerifyPolicy
  requestedClose : ClosePolicy
  baseKind : IntegrationBaseKind
  baseOid : Option BaseOid
  baseTask : Option TaskId
  projectId : String
  deriving DecidableEq

structure IntegrationSnapshot where
  schemaVersion : Nat
  integrationId : IntegrationId
  (epoch revision : Nat)
  target : String
  state : IntegrationStatus
  resumeState : Option IntegrationStatus
  pauseReason : Option IntegrationPauseReason
  sourceTurnId : TurnId
  sourceHead : BaseOid
  (mergeOid observedTargetOid : Option BaseOid)
  disposition : Option IntegrationDisposition
  (attempts resolveTurns verifyTurns : Nat)
  blockedCode : Option IntegrationCode
  retryExhausted : Bool
  retryAtMillis : Option Nat
  verification : IntegrationVerification
  updatedAtMillis : Nat
  deriving DecidableEq

structure IntegrationCandidateId where
  integrationId : IntegrationId
  (epoch attempt : Nat)
  deriving DecidableEq

structure CleanHManifest where
  branch : BranchName
  head : BaseOid
  untrackedFiles : List String
  deriving DecidableEq

structure IntegrationCandidate where
  id : IntegrationCandidateId
  (targetHead sourceHead : BaseOid)
  (treeOid mergeOid : Option BaseOid)
  message : String
  identity : GitIdentity
  timestampMillis : Nat
  (attributeSource ours theirs : BaseOid)
  cleanH : CleanHManifest
  conflictPaths : List String
  deriving DecidableEq

structure IntegrationWorkspaceBinding where
  taskId : TaskId
  candidate : IntegrationCandidateId
  branch : BranchName
  (head mergeHead attributeSource ours theirs : BaseOid)
  pinnedTree : Option BaseOid
  cleanH : CleanHManifest
  deriving DecidableEq

structure TurnLimits where
  timeoutMillis : Nat
  (maxTurns maxBudgetUsdCents : Option Nat)
  deriving DecidableEq

structure PreparedFollowup where
  taskId : TaskId
  turnId : TurnId
  baseOid : BaseOid
  createdAtMillis : Nat
  composedPrompt : String
  /-- The turn limits of the task it follows up. -/
  ordinaryLimits : TurnLimits
  deriving DecidableEq

structure PreparedIntegrationTurn where
  integrationId : IntegrationId
  (epoch attempt : Nat)
  purpose : IntegrationTurnPurpose
  ordinal : Nat
  followup : PreparedFollowup
  workspaceBinding : IntegrationWorkspaceBinding
  approvedTurnLimits : TurnLimits
  deriving DecidableEq

structure TargetReservation where
  key : TargetKey
  integrationId : IntegrationId
  epoch : Nat
  actor : ProcessIdentity
  deriving DecidableEq

structure IntegrationReceipt where
  integrationId : IntegrationId
  epoch : Nat
  sourceTurnId : TurnId
  (sourceHead targetHead : BaseOid)
  mergeOid : Option BaseOid
  disposition : IntegrationDisposition
  imported : Bool
  recordedAtMillis : Nat
  deriving DecidableEq

structure IntegrationPushIntent where
  candidate : IntegrationCandidateId
  (expectedTarget mergeOid : BaseOid)
  startedAtMillis : Nat
  uncertain : Bool
  deriving DecidableEq

structure IntegrationTombstone where
  (epoch revision requestedAtMillis : Nat)
  acknowledged : Bool
  deriving DecidableEq

structure IntegrationPhaseRetry where
  phase : IntegrationPhase
  retries : Nat
  code : IntegrationCode
  dueAtMillis : Nat
  deriving DecidableEq

structure IntegrationPauseEvidence where
  reason : IntegrationPauseReason
  effectiveAtMillis : Nat
  deriving DecidableEq

structure IntegrationAuxiliaryIntent where
  turnId : TurnId
  integrationId : IntegrationId
  (epoch attempt : Nat)
  purpose : IntegrationTurnPurpose
  ordinal : Nat
  preparedBinding : String
  createdAtMillis : Nat
  queuePosition : Option Nat
  (accepted completed : Bool)
  deriving DecidableEq

structure IntegrationRecord where
  schemaVersion : Nat
  taskId : TaskId
  policy : FrozenIntegrationPolicy
  snapshot : IntegrationSnapshot
  targetKey : TargetKey
  cycleBase : BaseOid
  (sourceRevision sourceSummary : String)
  sourceChecks : List ReportedCheck
  gitIdentity : GitIdentity
  actor : Option ProcessIdentity
  candidates : List IntegrationCandidate
  auxiliaries : List IntegrationAuxiliaryIntent
  archivedReceipts : List IntegrationReceipt
  pushIntent : Option IntegrationPushIntent
  receipt : Option IntegrationReceipt
  tombstone : Option IntegrationTombstone
  pause : Option IntegrationPauseEvidence
  (remainingAdmissionMillis admissionDeadlineMillis remainingBackoffMillis : Option Nat)
  phaseRetries : List IntegrationPhaseRetry
  (readyAtMillis runPosition followupsSpent : Nat)
  deriving DecidableEq

/-- What the contracts take from other components. -/
structure Codec where
  /-- The canonical spelling of an origin; absent when it has none. -/
  canonicalOrigin : String → Option String
  branchParses : String → Bool
  /-- The project that belongs to an origin. -/
  originProject : String → String
  pathsBytes : List String → Nat
  recordBytes : IntegrationRecord → Nat
  /-- The digest that names an auxiliary turn. -/
  turnDigest : IntegrationId → Nat → Nat → IntegrationTurnPurpose → Nat → TurnId
  binding : PreparedIntegrationTurn → String
  followupConsistent : PreparedFollowup → Bool

variable (codec : Codec)

/-! ## Validation -/

def validateIntegrationTarget (target : BranchName) : Checked Unit :=
  ensure ((bytes target.value).length ≤ maxTargetBytes ∧ codec.branchParses target.value = true)
    (.failed "TASK_CONFIG_INVALID")

def canonicalOrigin (origin : String) : Checked String :=
  match codec.canonicalOrigin origin with
  | some canonical => .ok canonical
  | none => .error invalid

namespace TargetKey

def validate (key : TargetKey) : Checked Unit := do
  let origin ← canonicalOrigin codec key.origin
  ensure (origin = key.origin) invalid
  validateIntegrationTarget codec key.branch

end TargetKey

namespace FrozenIntegrationPolicy

def targetKey (policy : FrozenIntegrationPolicy) : Checked TargetKey := do
  let origin ← canonicalOrigin codec policy.origin
  validateIntegrationTarget codec policy.target
  let key : TargetKey := ⟨origin, policy.target⟩
  key.validate codec
  return key

def validate (policy : FrozenIntegrationPolicy) : Checked Unit := do
  ensure (policy.schemaVersion = integrationSchemaVersion ∧ isLowerHex policy.projectId 64 = true ∧
      (policy.baseKind = .committed → policy.baseOid.isSome ∧ policy.baseTask.isNone) ∧
      (policy.baseKind = .fromTask → policy.baseTask.isSome)) invalid
  let origin ← canonicalOrigin codec policy.origin
  ensure (origin = policy.origin) invalid
  validateIntegrationTarget codec policy.target

end FrozenIntegrationPolicy

def IntegrationId.derive (task : TaskId) (source : TurnId) (head : BaseOid) (key : TargetKey) :
    Checked IntegrationId := do
  key.validate codec
  return ⟨task, source, head, key⟩

theorem IntegrationId.derive_eq_ok {task source head key} (id : IntegrationId) :
    derive codec task source head key = .ok id ↔
      key.validate codec = .ok () ∧ (⟨task, source, head, key⟩ : IntegrationId) = id := by
  rw [derive, then_eq_ok, pure_eq_ok]

def auxiliaryTurnId (id : IntegrationId) (epoch attempt : Nat) (purpose : IntegrationTurnPurpose)
    (ordinal : Nat) : Checked TurnId :=
  let cap := match purpose with
    | .resolve => maxResolveTurns
    | .verify => maxVerifyTurns
  if attempt = 0 ∨ maxCandidates < attempt ∨ ordinal = 0 ∨ cap < ordinal then .error invalid
  else .ok (codec.turnDigest id epoch attempt purpose ordinal)

def isControl (c : Char) : Bool := c.toNat < 32 || (127 ≤ c.toNat && c.toNat ≤ 159)

namespace IntegrationSnapshot

def resultOid (snapshot : IntegrationSnapshot) : Option BaseOid :=
  snapshot.mergeOid.or snapshot.observedTargetOid

/-- A state that is left by restoring another one. -/
def resumable (state : IntegrationStatus) : Bool := state == .parked || state == .retryWait

def restorable : IntegrationStatus → Bool
  | .armed | .parked | .retryWait | .integrated | .blocked | .revoked => false
  | _ => true

@[mk_iff]
structure Valid (s : IntegrationSnapshot) : Prop where
  schema : s.schemaVersion = integrationSchemaVersion
  revision : s.revision ≠ 0
  target : s.target ≠ "" ∧ (bytes s.target).length ≤ maxTargetDisplayBytes ∧
    s.target.toList.any isControl = false
  attempts : s.attempts ≤ maxCandidates
  resolveTurns : s.resolveTurns ≤ maxResolveTurns
  verifyTurns : s.verifyTurns ≤ maxVerifyTurns
  pauseReason : s.pauseReason.isSome = (s.state == .parked)
  resumeState : s.resumeState.isSome = resumable s.state
  restores : s.resumeState.all restorable = true
  blocked : s.state = .blocked → s.blockedCode.isSome
  integrated : s.state = .integrated → s.disposition.isSome ∧ s.resultOid.isSome
  alreadyIntegrated : s.disposition = some .alreadyIntegrated →
    s.mergeOid.isNone ∧ s.observedTargetOid.isSome
  merged : s.disposition = some .merged → s.mergeOid.isSome

instance (s : IntegrationSnapshot) : Decidable s.Valid := decidable_of_iff' _ s.valid_iff

def validate (s : IntegrationSnapshot) : Checked Unit := ensure s.Valid invalid

end IntegrationSnapshot

def hasRelativeComponents (path : String) : Bool :=
  (path.splitOn "/").all fun part => part != "" && part != "." && part != ".."

def validateRelativePath (path : String) : Checked Unit :=
  ensure (path ≠ "" ∧ (bytes path).length ≤ maxConflictPathBytes ∧
      path.toList.any (fun c => c == '\\' || c == ':' || isControl c) = false ∧
      hasRelativeComponents path = true)
    (.rejected .conflictListTooLarge)

def validateConflictPaths (paths : List String) : Checked Unit := do
  ensure (paths.length ≤ maxConflictPaths) (.rejected .conflictListTooLarge)
  paths.forM validateRelativePath
  ensure (codec.pathsBytes paths ≤ maxPromptBytes) (.rejected .conflictListTooLarge)

def CleanHManifest.validate (manifest : CleanHManifest) : Checked Unit := do
  ensure ((bytes "task/").isPrefixOf (bytes manifest.branch.value) = true) invalid
  manifest.untrackedFiles.forM validateRelativePath

namespace IntegrationCandidate

@[mk_iff]
structure Valid (c : IntegrationCandidate) : Prop where
  attempt : c.id.attempt ≠ 0 ∧ c.id.attempt ≤ maxCandidates
  attributes : c.attributeSource = c.sourceHead
  ours : c.ours = c.sourceHead
  theirs : c.theirs = c.targetHead
  distinct : c.sourceHead ≠ c.targetHead
  clean : c.cleanH.head = c.sourceHead
  message : c.message ≠ "" ∧ (bytes c.message).length ≤ maxCommitMessageBytes
  pins : c.mergeOid.isSome → c.treeOid.isSome

instance (c : IntegrationCandidate) : Decidable c.Valid := decidable_of_iff' _ c.valid_iff

def validate (c : IntegrationCandidate) : Checked Unit := do
  ensure c.Valid invalid
  c.cleanH.validate
  validateConflictPaths codec c.conflictPaths

/-- A recorded candidate with the pins that `reply` adds to it. -/
def complete (recorded reply : IntegrationCandidate) : IntegrationCandidate :=
  { recorded with
    treeOid := recorded.treeOid.or reply.treeOid
    mergeOid := recorded.mergeOid.or reply.mergeOid }

end IntegrationCandidate

namespace IntegrationWorkspaceBinding

def validate (b : IntegrationWorkspaceBinding) : Checked Unit := do
  ensure (b.candidate.attempt ≠ 0 ∧ b.candidate.attempt ≤ maxCandidates ∧
      b.branch = BranchName.forTask b.taskId ∧ b.cleanH.branch = b.branch ∧
      b.cleanH.head = b.head ∧ b.attributeSource = b.head ∧ b.ours = b.head ∧
      b.theirs = b.mergeHead ∧ b.head ≠ b.mergeHead) invalid
  b.cleanH.validate

def validateFor (b : IntegrationWorkspaceBinding) (c : IntegrationCandidate) : Checked Unit := do
  b.validate
  c.validate codec
  ensure (b.candidate = c.id ∧ b.head = c.sourceHead ∧ b.mergeHead = c.targetHead ∧
      b.attributeSource = c.attributeSource ∧ b.ours = c.ours ∧ b.theirs = c.theirs ∧
      b.cleanH = c.cleanH ∧ (b.pinnedTree.isSome → b.pinnedTree = c.treeOid)) invalid

end IntegrationWorkspaceBinding

def IntegrationReceipt.validate (receipt : IntegrationReceipt) : Checked Unit :=
  ensure ((receipt.disposition == .merged) = receipt.mergeOid.isSome) invalid

/-- Completion implies acceptance, and acceptance a place in the queue. -/
def IntegrationAuxiliaryIntent.validate (aux : IntegrationAuxiliaryIntent) : Checked Unit := do
  let turn ← auxiliaryTurnId codec aux.integrationId aux.epoch aux.attempt aux.purpose aux.ordinal
  ensure (aux.turnId = turn ∧ isLowerHex aux.preparedBinding 64 = true) invalid
  ensure ((aux.completed = true → aux.accepted = true) ∧
      (aux.accepted = true → aux.queuePosition.isSome)) invalid

namespace IntegrationRecord

@[mk_iff]
structure Consistent (r : IntegrationRecord) : Prop where
  schema : r.schemaVersion = integrationSchemaVersion
  sourceRevision : isLowerHex r.sourceRevision 64 = true
  sourceSummary : (bytes r.sourceSummary).length ≤ maxMessageSummaryBytes
  candidates : r.candidates.length ≤ maxCandidates
  auxiliaries : r.auxiliaries.length ≤ maxAuxiliaryIntents
  archivedReceipts : r.archivedReceipts.length ≤ maxArchivedReceipts
  admission : r.remainingAdmissionMillis.all (· ≤ auxiliaryAdmissionMillis) = true
  backoff : r.remainingBackoffMillis.all (· ≤ 30000) = true
  retries : r.phaseRetries.length ≤ 8 ∧ r.phaseRetries.all (·.retries ≤ 3) = true
  parked : r.pause.isSome = (r.snapshot.state == .parked)
  pauseReason : ∀ p, r.pause = some p → r.snapshot.pauseReason = some p.reason
  pauseDeadline : r.pause.isSome → r.admissionDeadlineMillis.isNone

instance (r : IntegrationRecord) : Decidable r.Consistent := decidable_of_iff' _ r.consistent_iff

def validate (r : IntegrationRecord) : Checked Unit := do
  r.policy.validate codec
  r.snapshot.validate
  r.targetKey.validate codec
  let key ← r.policy.targetKey codec
  let id ← IntegrationId.derive codec r.taskId r.snapshot.sourceTurnId r.snapshot.sourceHead
    r.targetKey
  ensure (r.targetKey = key ∧ r.snapshot.integrationId = id ∧ r.Consistent) invalid
  checkSome r.actor fun actor => ensure actor.Valid (.failed "PROTOCOL")
  r.candidates.forM fun c => do
    c.validate codec
    ensure (c.id.integrationId = r.snapshot.integrationId ∧ c.id.epoch = r.snapshot.epoch ∧
      c.sourceHead = r.snapshot.sourceHead ∧ c.cleanH.branch = BranchName.forTask r.taskId) invalid
  ensure ((r.candidates.map (·.id.attempt)).Nodup) invalid
  r.auxiliaries.forM fun aux => do
    aux.validate codec
    ensure (aux.integrationId = r.snapshot.integrationId ∧ aux.epoch = r.snapshot.epoch) invalid
  ensure ((r.auxiliaries.map (·.turnId)).Nodup) invalid
  r.archivedReceipts.forM IntegrationReceipt.validate
  checkSome r.receipt IntegrationReceipt.validate
  ensure (codec.recordBytes r ≤ maxPrivateRecordBytes) invalid

/-- What a record that passes validation satisfies. -/
structure Validated (r : IntegrationRecord) : Prop where
  policy : r.policy.validate codec = .ok ()
  snapshot : r.snapshot.Valid
  policyKey : r.policy.targetKey codec = .ok r.targetKey
  key : r.targetKey.validate codec = .ok ()
  id : r.snapshot.integrationId =
    ⟨r.taskId, r.snapshot.sourceTurnId, r.snapshot.sourceHead, r.targetKey⟩
  consistent : r.Consistent
  actor : ∀ a, r.actor = some a → a.Valid
  candidates : ∀ c ∈ r.candidates, c.validate codec = .ok () ∧
    c.id.integrationId = r.snapshot.integrationId ∧ c.id.epoch = r.snapshot.epoch ∧
    c.sourceHead = r.snapshot.sourceHead ∧ c.cleanH.branch = BranchName.forTask r.taskId
  attempts : (r.candidates.map (·.id.attempt)).Nodup
  auxiliaries : ∀ aux ∈ r.auxiliaries, aux.validate codec = .ok () ∧
    aux.integrationId = r.snapshot.integrationId ∧ aux.epoch = r.snapshot.epoch
  turns : (r.auxiliaries.map (·.turnId)).Nodup
  archived : ∀ receipt ∈ r.archivedReceipts, receipt.validate = .ok ()
  receipt : ∀ receipt, r.receipt = some receipt → receipt.validate = .ok ()
  size : codec.recordBytes r ≤ maxPrivateRecordBytes

theorem validate_eq_ok {r : IntegrationRecord} : r.validate codec = .ok () ↔ r.Validated codec := by
  unfold validate
  rw [then_eq_ok, then_eq_ok, then_eq_ok, IntegrationSnapshot.validate, ensure_eq_ok]
  constructor
  · rintro ⟨hp, hs, hk, h⟩
    obtain ⟨key, hke, h⟩ := of_bind h
    obtain ⟨id, hid, h⟩ := of_bind h
    simp only [then_eq_ok, ensure_eq_ok, checkSome_eq_ok, forM_eq_ok] at h
    obtain ⟨⟨rfl, rfl, hc⟩, ha, hcs, hat, hau, ht, har, hre, hz⟩ := h
    exact ⟨hp, hs, hke, hk, ((IntegrationId.derive_eq_ok codec _).mp hid).2.symm, hc, ha, hcs, hat,
      hau, ht, har, hre, hz⟩
  · rintro ⟨hp, hs, hke, hk, hid, hc, ha, hcs, hat, hau, ht, har, hre, hz⟩
    have hd := (IntegrationId.derive_eq_ok codec r.snapshot.integrationId).mpr ⟨hk, hid.symm⟩
    refine ⟨hp, hs, hk, bind_eq_ok.mpr ⟨_, hke, bind_eq_ok.mpr ⟨_, hd, ?_⟩⟩⟩
    simp only [then_eq_ok, ensure_eq_ok, checkSome_eq_ok, forM_eq_ok]
    exact ⟨⟨trivial, trivial, hc⟩, ha, hcs, hat, hau, ht, har, hre, hz⟩

end IntegrationRecord

namespace PreparedIntegrationTurn

def validate (p : PreparedIntegrationTurn) : Checked Unit := do
  ensure (codec.followupConsistent p.followup = true) invalid
  p.workspaceBinding.validate
  let cap := match p.purpose with
    | .resolve => maxResolveTurns
    | .verify => maxVerifyTurns
  ensure (p.attempt ≠ 0 ∧ p.attempt ≤ maxCandidates ∧ p.ordinal ≠ 0 ∧ p.ordinal ≤ cap ∧
      p.workspaceBinding.candidate = ⟨p.integrationId, p.epoch, p.attempt⟩ ∧
      p.followup.taskId = p.workspaceBinding.taskId) invalid
  let turn ← auxiliaryTurnId codec p.integrationId p.epoch p.attempt p.purpose p.ordinal
  let ordinary := p.followup.ordinaryLimits
  ensure (p.followup.turnId = turn ∧ p.followup.baseOid = p.workspaceBinding.head ∧
      (p.purpose = .verify → p.workspaceBinding.pinnedTree.isSome) ∧
      p.approvedTurnLimits.timeoutMillis ≠ 0 ∧
      p.approvedTurnLimits.timeoutMillis ≤ min ordinary.timeoutMillis auxiliaryAdmissionMillis ∧
      p.approvedTurnLimits.maxTurns = ordinary.maxTurns ∧
      p.approvedTurnLimits.maxBudgetUsdCents = ordinary.maxBudgetUsdCents) invalid
  ensure ((bytes p.followup.composedPrompt).length ≤ maxPromptBytes) invalid

/-- The preparation belongs to this cycle and to one of its candidates. -/
def validateFor (p : PreparedIntegrationTurn) (r : IntegrationRecord) : Checked Unit := do
  p.validate codec
  r.validate codec
  ensure (p.integrationId = r.snapshot.integrationId ∧ p.epoch = r.snapshot.epoch ∧
      p.followup.taskId = r.taskId ∧ p.workspaceBinding.head = r.snapshot.sourceHead) invalid
  match r.candidates.find? (·.id == p.workspaceBinding.candidate) with
  | none => .error invalid
  | some c => p.workspaceBinding.validateFor codec c

def bindingDigest (p : PreparedIntegrationTurn) : Checked String := do
  p.validate codec
  return codec.binding p

def intent (p : PreparedIntegrationTurn) : Checked IntegrationAuxiliaryIntent := do
  let binding ← p.bindingDigest codec
  return {
    turnId := p.followup.turnId
    integrationId := p.integrationId
    epoch := p.epoch
    attempt := p.attempt
    purpose := p.purpose
    ordinal := p.ordinal
    preparedBinding := binding
    createdAtMillis := p.followup.createdAtMillis
    queuePosition := none
    accepted := false
    completed := false }

end PreparedIntegrationTurn

/-! ## Requests and responses -/

inductive HostIntegrationAction where
  | arm (policy : FrozenIntegrationPolicy)
  | step (step : IntegrationStep) (record : IntegrationRecord)
  | read
  | revoke (tombstone : IntegrationTombstone)
  deriving DecidableEq

structure HostIntegrationRequest where
  protocolVersion : Nat
  taskId : TaskId
  integrationId : Option IntegrationId
  (epoch revision : Nat)
  action : HostIntegrationAction
  deriving DecidableEq

structure IntegrationResponseIdentity where
  protocolVersion : Nat
  taskId : TaskId
  integrationId : Option IntegrationId
  (epoch revision : Nat)
  deriving DecidableEq

namespace IntegrationResponseIdentity

def forRequest (request : HostIntegrationRequest) : IntegrationResponseIdentity :=
  ⟨request.protocolVersion, request.taskId, request.integrationId, request.epoch, request.revision⟩

def validate (identity : IntegrationResponseIdentity) : Checked Unit :=
  ensure (identity.protocolVersion = currentProtocolVersion ∧
      (identity.integrationId.isNone → identity.revision = 0 ∧ identity.epoch = 0) ∧
      (identity.integrationId.isSome → identity.revision ≠ 0)) invalid

end IntegrationResponseIdentity

def HostIntegrationRequest.validate (request : HostIntegrationRequest) : Checked Unit := do
  (IntegrationResponseIdentity.forRequest request).validate
  match request.action with
  | .arm policy => do
    ensure (request.integrationId = none) invalid
    policy.validate codec
  | .step _ record => do
    record.validate codec
    ensure (record.taskId = request.taskId ∧
      some record.snapshot.integrationId = request.integrationId ∧
      record.snapshot.epoch = request.epoch ∧ record.snapshot.revision = request.revision) invalid
  | .revoke tombstone =>
    ensure (request.integrationId.isSome ∧ tombstone.epoch = request.epoch ∧
      tombstone.revision = request.revision) invalid
  | .read => .ok ()

inductive HostIntegrationResponse where
  | progress (identity : IntegrationResponseIdentity) (snapshot : Option IntegrationSnapshot)
  | needTurn (identity : IntegrationResponseIdentity) (candidate : IntegrationCandidate)
      (purpose : IntegrationTurnPurpose)
  | candidateReady (identity : IntegrationResponseIdentity) (candidate : IntegrationCandidate)
  | targetMoved (identity : IntegrationResponseIdentity) (observedTarget : BaseOid)
  | integrated (identity : IntegrationResponseIdentity) (receipt : IntegrationReceipt)
  | blocked (identity : IntegrationResponseIdentity) (code : IntegrationCode)
      (retryExhausted : Bool)
  | revoked (identity : IntegrationResponseIdentity)

namespace HostIntegrationResponse

def identity : HostIntegrationResponse → IntegrationResponseIdentity
  | progress identity _ | needTurn identity _ _ | candidateReady identity _
  | targetMoved identity _ | integrated identity _ | blocked identity _ _ | revoked identity =>
    identity

def validateCandidate (identity : IntegrationResponseIdentity) (c : IntegrationCandidate) :
    Checked Unit := do
  c.validate codec
  ensure (some c.id.integrationId = identity.integrationId ∧ c.id.epoch = identity.epoch ∧
    c.cleanH.branch = BranchName.forTask identity.taskId) invalid

def validate (response : HostIntegrationResponse) : Checked Unit := do
  response.identity.validate
  match response with
  | progress identity snapshot => do
    ensure (snapshot.isSome = identity.integrationId.isSome) invalid
    checkSome snapshot fun s => do
      s.validate
      ensure (some s.integrationId = identity.integrationId ∧ s.epoch = identity.epoch ∧
        s.revision = identity.revision) invalid
  | needTurn identity candidate _ => validateCandidate codec identity candidate
  | candidateReady identity candidate => do
    validateCandidate codec identity candidate
    ensure candidate.treeOid.isSome invalid
  | integrated identity receipt => do
    receipt.validate
    ensure (some receipt.integrationId = identity.integrationId ∧
      receipt.epoch = identity.epoch) invalid
  | _ => .ok ()

/-- A finished candidate repeats what the requesting record holds of it. -/
def validateReady (step : IntegrationStep) (record : IntegrationRecord)
    (candidate : IntegrationCandidate) : Checked Unit := do
  ensure (candidate.sourceHead = record.snapshot.sourceHead ∧
    candidate.identity = record.gitIdentity ∧
    ((step = .build ∨ step = .push ∨ step = .repair) → candidate.mergeOid.isSome)) invalid
  match record.candidates.find? (·.id == candidate.id) with
  | some recorded => ensure (recorded.complete candidate = candidate) invalid
  | none =>
    ensure (record.candidates.length < maxCandidates ∧
      ∀ old ∈ record.candidates, old.id.attempt < candidate.id.attempt) invalid

def validateFor (response : HostIntegrationResponse) (request : HostIntegrationRequest) :
    Checked Unit := do
  request.validate codec
  response.validate codec
  ensure (response.identity = .forRequest request) invalid
  match response with
  | candidateReady _ candidate =>
    match request.action with
    | .step step record => validateReady step record candidate
    | _ => .error invalid
  | _ => .ok ()

end HostIntegrationResponse

end MacWorker.Integration
