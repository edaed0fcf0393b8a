import MacWorker.Integration.HostWrites
import MacWorker.Lib.Reach

/-! # Runs of a host

A run interleaves requests, each of which may be cut off after any of its
writes, with what happens to the task between them. An invariant of a run is
one that every write keeps and the task keeps. -/
namespace MacWorker.Integration
open Fallible Durable Relation
open Dag (IntegrationStatus IntegrationCode)

/-- No integration of the task was ever requested. -/
structure HostState.Fresh (s : HostState) : Prop where
  policy : s.policy = none
  record : s.record = none
  evidence : s.evidence = none
  pushes : s.pushes = []
  accepts : s.accepts = []

inductive TaskMove (s : HostState) : HostState → Prop
  | mk (status : HostTaskStatus) (live : Bool)
      (prepared : TurnId → Option PreparedIntegrationTurn) :
    TaskMove s { s with status := status, live := live, prepared := prepared }

/-- A request that `sends` admits, complete or cut off, or a move of the task. -/
inductive HostStep (codec : Codec) (sends : HostIntegrationRequest → Prop)
    (moves : HostState → HostState → Prop) (s : HostState) : HostState → Prop
  | request {git : HostOracle} {request : HostIntegrationRequest} {t : HostState}
      (hsends : sends request) (ht : t ∈ (execute codec git request).exposed s) :
    HostStep codec sends moves s t
  | task {t : HostState} (hmove : moves s t) : HostStep codec sends moves s t

abbrev HostRun (codec : Codec) (sends : HostIntegrationRequest → Prop)
    (moves : HostState → HostState → Prop) : HostState → HostState → Prop :=
  ReflTransGen (HostStep codec sends moves)

section
variable {codec : Codec} {git : HostOracle} {request : HostIntegrationRequest}
  {sends : HostIntegrationRequest → Prop} {moves : HostState → HostState → Prop} {s t : HostState}

theorem writes_of_exposed (h : t ∈ (execute codec git request).exposed s) :
    Writes codec git request s t :=
  (execute_spec s).exposed .refl t h

theorem HostStep.completed (git : HostOracle) (hs : sends request) :
    HostStep codec sends moves s ((execute codec git request).final s) :=
  .request hs (Prog.final_mem_exposed _ _)

/-- **What every write and the task preserve, a run preserves.** -/
theorem HostRun.invariant {p : HostState → Prop}
    (hw : ∀ git request a b, sends request → p a → HostWrite codec git request a b → p b)
    (hm : ∀ a b, p a → moves a b → p b) (hs : p s) (hr : HostRun codec sends moves s t) :
    p t := by
  refine Reach.invariant ?_ hs hr
  intro a b ha hst
  cases hst with
  | request hse hb =>
    exact Reach.invariant (fun _ _ => hw _ _ _ _ hse) ha (writes_of_exposed hb)
  | task h => exact hm a b ha h

end

/-! ## A small host -/

def sourceHead : BaseOid := .sample
def firstTarget : BaseOid := ⟨"00000000000000000000000000000000000000b1", by decide⟩
def secondTarget : BaseOid := ⟨"00000000000000000000000000000000000000b2", by decide⟩
def mergedTree : BaseOid := ⟨"00000000000000000000000000000000000000c1", by decide⟩
def mergeCommit : BaseOid := ⟨"00000000000000000000000000000000000000d1", by decide⟩

def sampleProject : String := "00000000000000000000000000000000000000000000000000000000000000ee"

def sampleCodec : Codec where
  canonicalOrigin := some
  branchParses _ := true
  originProject _ := sampleProject
  pathsBytes paths := paths.length
  recordBytes record := record.candidates.length
  turnDigest _ _ attempt purpose ordinal :=
    ⟨.ofNat 128 (1000 + 10 * attempt + 2 * ordinal + if purpose = .verify then 1 else 0)⟩
  binding _ := sampleProject
  followupConsistent _ := true

def samplePolicy : FrozenIntegrationPolicy :=
  ⟨1, "git.example", ⟨"main"⟩, .never, .never, .committed, some firstTarget, none, sampleProject⟩

def sampleKey : TargetKey := ⟨"git.example", ⟨"main"⟩⟩

def sampleHost : HostState where
  info := ⟨⟨7⟩, sampleProject, .never, false, ⟨"n", "e"⟩, "title", false, none⟩
  status := ⟨⟨.open, some .done, some sourceHead, [⟨⟨1⟩, some .succeeded, some .done⟩]⟩, []⟩
  live := false
  policy := none
  record := none
  evidence := none
  prepared _ := none
  pushes := []
  accepts := []

def sampleRecord (epoch revision : Nat) : IntegrationRecord where
  schemaVersion := 1
  taskId := ⟨7⟩
  policy := samplePolicy
  snapshot := {
    schemaVersion := 1
    integrationId := ⟨⟨7⟩, ⟨1⟩, sourceHead, sampleKey⟩
    epoch := epoch
    revision := revision
    target := "main"
    state := .fetching
    resumeState := none
    pauseReason := none
    sourceTurnId := ⟨1⟩
    sourceHead := sourceHead
    mergeOid := none
    observedTargetOid := none
    disposition := none
    attempts := 0
    resolveTurns := 0
    verifyTurns := 0
    blockedCode := none
    retryExhausted := false
    retryAtMillis := none
    verification := .sourceAgentReportOnly
    updatedAtMillis := 0 }
  targetKey := sampleKey
  cycleBase := firstTarget
  sourceRevision := sampleProject
  sourceSummary := "done"
  sourceChecks := []
  gitIdentity := ⟨"n", "e"⟩
  actor := none
  candidates := []
  auxiliaries := []
  archivedReceipts := []
  pushIntent := none
  receipt := none
  tombstone := none
  pause := none
  remainingAdmissionMillis := none
  admissionDeadlineMillis := none
  remainingBackoffMillis := none
  phaseRetries := []
  readyAtMillis := 0
  runPosition := 0
  followupsSpent := 0

/-- A Git whose target stays where it is and whose merges never conflict. -/
def sampleGit : HostOracle where
  nowMillis := 5
  fenceHeld := false
  fetchTarget _ := .ok firstTarget
  mirror := .ok ()
  isAncestor _ _ := .ok true
  settle _ := .ok none
  settleTarget _ _ := .ok none
  restoreSource _ _ := .ok ()
  untracked _ _ := .ok []
  requireCleanSource _ _ := .ok ()
  assertWorkspace _ _ := .ok ()
  mergeTree _ := .ok (mergedTree, [])
  commitTree _ := .ok mergeCommit
  tree _ := .ok sampleProject
  prepareWorkspace _ _ _ := .ok ()
  validateAcceptedWorkspace _ _ := .ok ()
  checkWorkspace _ _ _ := .ok ()
  resolvedTree _ := .ok mergedTree
  keepWorkspace _ _ := .ok ()
  push _ _ := .ok (.moved sourceHead)
  moveBranch _ _ := .ok ()
  integrationMessage title _ := title

def movedGit : HostOracle := { sampleGit with fetchTarget := fun _ => .ok secondTarget }

def sampleRequest (epoch revision : Nat) (action : HostIntegrationAction) :
    HostIntegrationRequest :=
  ⟨currentProtocolVersion, ⟨7⟩, some ⟨⟨7⟩, ⟨1⟩, sourceHead, sampleKey⟩, epoch, revision, action⟩

def sampleStop (epoch revision : Nat) : HostIntegrationRequest :=
  sampleRequest epoch revision (.revoke ⟨epoch, revision, 0, false⟩)

def afterStep (git : HostOracle) (step : IntegrationStep) (revision : Nat) (s : HostState) :
    HostState :=
  (execute sampleCodec git
    (sampleRequest 0 revision (.step step (sampleRecord 0 revision)))).final s

end MacWorker.Integration
