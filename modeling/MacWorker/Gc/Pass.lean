import MacWorker.Integration.Contracts
import MacWorker.Job.Status
import MacWorker.Lib.Durable
import Mathlib.Data.List.AList

/-! # Garbage collection on a host

One pass runs under the installation lock. It takes an inventory of leases and task
records, collects candidates from the tasks, the jobs and the mirrors, and applies them
one after the other; most are checked again before anything is removed. A file that cannot
be read, or not as canonical JSON, is `none`. Left out are sizes, warnings and the report
with its limit, candidates for records of an older protocol, which are never applied, and
the tabs of herdr and the maintenance of the mirrors, which remove none of what is
modelled here. -/
namespace MacWorker.Gc
open Fallible Durable

/-- A directory, whose names are distinct. -/
abbrev Directory (κ α : Type) : Type := AList fun _ : κ => α

/-! ## What is on the host -/

inductive ExecutionScope where
  | task (id : TaskId)
  | job
  deriving DecidableEq

structure OccupiedSlot where
  jobId : JobId
  projectId : String
  scope : ExecutionScope

def OccupiedSlot.ownsTask (slot : OccupiedSlot) (project : String) (id : TaskId) : Bool :=
  slot.projectId == project && slot.scope == .task id

inductive DeliveryState where
  | pending
  | retrying
  | delivered
  | failed
  deriving DecidableEq

def DeliveryState.retainsObjects : DeliveryState → Bool
  | .pending | .retrying => true
  | .delivered | .failed => false

structure DeliveryIntent where
  state : DeliveryState
  updatedAtMillis : Nat

structure StoredStatus extends TaskStatus where
  updatedAtMillis : Nat

structure TaskDirectory where
  info : Option TaskMeta
  status : Option StoredStatus
  /-- The host's integration record, and whether a policy is armed. -/
  integration : Option (Option Integration.IntegrationRecord × Bool)
  /-- The delivery intents by turn. -/
  intents : Option (Directory TurnId (Option DeliveryIntent))
  /-- Every file of the directory can be counted. -/
  sized : Bool

structure JobMeta where
  jobId : JobId
  (projectId worktreeId : String)
  deriving DecidableEq

structure JobDirectory where
  info : Option JobMeta
  /-- The state, and when it was updated. -/
  status : Option (Job.JobState × Nat)
  /-- The index entry and both lock files of the job are there. -/
  siblings : Bool
  /-- There is a workspace, a home, a temporary directory or a payload. -/
  (leftovers sized : Bool)

inductive RefName where
  | branch (task : TaskId)
  | base (task : TaskId)
  | session (task : TaskId)
  /-- A delivery ref of a turn, or below the task but of no turn. -/
  | delivery (task : TaskId) (turn : Option TurnId) (text : String)
  /-- A branch or base whose name ends in no task id. -/
  | malformedTask (text : String)
  | malformedSession (text : String)
  | other (text : String)
  deriving DecidableEq

def RefName.task : RefName → Option TaskId
  | .branch id | .base id | .session id | .delivery id _ _ => some id
  | .malformedTask _ | .malformedSession _ | .other _ => none

inductive RefFile where
  | loose (modifiedMillis : Nat)
  | packed
  | unreadable
  deriving DecidableEq

structure MirrorRef where
  name : RefName
  /-- The creator date of the commit, if it is one. -/
  creatorMillis : Option Nat
  file : RefFile
  /-- When the ref came into the mirror. Nothing reads it. -/
  createdAtMillis : Nat
  deriving DecidableEq

structure Mirror where
  /-- Without refs the mirror cannot be opened, or Git fails in it. -/
  refs : Option (List MirrorRef)
  (packedMillis modifiedMillis : Option Nat)

inductive Removal where
  | ref (project : String) (ref : MirrorRef)
  | task (project : String) (id : TaskId)
  | job (project worktree : String) (id : JobId)
  | mirror (project : String)
  deriving DecidableEq

structure GcHost where
  leases : Option (List OccupiedSlot)
  /-- A directory that cannot be opened is `none`. -/
  tasks : Directory (String × TaskId) (Option TaskDirectory)
  jobs : Directory (String × String × JobId) (Option JobDirectory)
  /-- Projects whose tasks, or jobs, cannot all be listed, or have other names. -/
  (strayTasks strayJobs : List String)
  mirrors : Directory String Mirror
  /-- What passes have removed. History that nothing reads. -/
  removed : List Removal

structure GcRequest where
  apply : Bool
  (nowMillis taskRetentionMillis branchRetentionMillis jobRetentionMillis : Nat)

inductive GcError where
  | failed
  deriving DecidableEq

abbrev Checked (α : Type) : Type := Except GcError α

def read {α : Type} (file : Option α) : Checked α := file.elim (.error .failed) .ok

def GcRequest.validate (request : GcRequest) : Checked Unit :=
  ensure (request.taskRetentionMillis ≠ 0 ∧ request.branchRetentionMillis ≠ 0 ∧
    request.jobRetentionMillis ≠ 0) .failed

def expired (nowMillis updatedAtMillis retentionMillis : Nat) : Bool :=
  retentionMillis ≤ nowMillis - updatedAtMillis

def branchRetentionMillis : Nat := 30 * 24 * 60 * 60 * 1000

def isTerminal : TaskState → Bool
  | .closed | .abandoned | .lost => true
  | .queued | .active | .open => false

/-! ## Active work -/

section
variable (host : GcHost) (project : String) (id : TaskId)

def integrationRetains (record : Option Integration.IntegrationRecord) (armed : Bool)
    (status : StoredStatus) : Bool :=
  match record with
  | some r => !((r.snapshot.state == .revoked && r.tombstone.any (·.acknowledged) &&
      r.pushIntent.all (!·.uncertain)) ||
      (r.snapshot.state == .integrated && r.receipt.any (·.imported)))
  | none => armed && !isTerminal status.state

def DeliveryIntent.retained (intent : DeliveryIntent) (nowMillis : Nat) : Bool :=
  intent.state.retainsObjects ||
    (intent.state == .failed && nowMillis - intent.updatedAtMillis < branchRetentionMillis)

/-- The turns that the delivery refs of a task pin. -/
def GcHost.deliveryPins : Checked (List TurnId) :=
  match host.mirrors.lookup project with
  | none => .ok []
  | some mirror => do
    let refs ← read mirror.refs
    return refs.filterMap fun ref => match ref.name with
      | .delivery owner turn _ => if owner = id then turn else none
      | _ => none

def GcHost.outboxRetains (directory : TaskDirectory) (nowMillis : Nat) : Checked Bool :=
  match directory.intents with
  | none => .ok true
  | some intents =>
    if intents.entries.any fun entry => entry.2.all (·.retained nowMillis) then .ok true
    else do
      let pins ← host.deliveryPins project id
      return pins.any fun turn => (intents.lookup turn).isNone

def GcHost.turnsActive (worktree : String) (liveLeaseJobs : List JobId) :
    List TurnSummary → Checked Bool
  | [] => .ok false
  | turn :: rest =>
    if turn.terminal.isNone || liveLeaseJobs.contains turn.turnId then .ok true
    else
      match host.jobs.lookup (project, worktree, turn.turnId) with
      | none => GcHost.turnsActive worktree liveLeaseJobs rest
      | some job => do
        let (state, _) ← read (job.bind (·.status))
        if state.isTerminal then GcHost.turnsActive worktree liveLeaseJobs rest
        else .ok true

def GcHost.taskHasActiveWork (directory : TaskDirectory) (info : TaskMeta)
    (status : StoredStatus) (liveLeaseJobs : List JobId) (nowMillis : Nat) : Checked Bool := do
  let (record, armed) ← read directory.integration
  if integrationRetains record armed status then return true
  if ← host.turnsActive project info.worktreeId liveLeaseJobs status.turns then return true
  host.outboxRetains project info.taskId directory nowMillis

def GcHost.taskIdHasActiveWork (nowMillis : Nat) : Checked Bool :=
  match host.tasks.lookup (project, id) with
  | none => .ok false
  | some directory => do
    let directory ← read directory
    let info ← read directory.info
    let status ← read directory.status
    match host.leases with
    | none => return true
    | some slots =>
      if slots.any (·.ownsTask project id) then return true
      else host.taskHasActiveWork project directory info status (slots.map (·.jobId)) nowMillis

end

/-! ## Collecting -/

structure TaskSnapshot where
  state : TaskState
  updatedAtMillis : Nat
  activeWork : Bool

structure GcInventory where
  liveLeaseJobs : List JobId
  liveTaskScopes : List (String × TaskId)
  leaseUncertain : Bool
  tasks : String → TaskId → Option TaskSnapshot
  (taskProjects uncertainTaskProjects : List String)

inductive GcCandidate where
  | openTask (project : String) (id : TaskId)
  | taskMetadata (project : String) (id : TaskId)
  | branch (project : String) (id : TaskId)
  | session (project : String) (id : TaskId)
  | job (project worktree : String) (id : JobId)
  | mirror (project : String)
  deriving DecidableEq

section
variable (host : GcHost) (request : GcRequest) (inventory : GcInventory) (project : String)
  (id : TaskId)

def liveTaskScopes (slots : List OccupiedSlot) : List (String × TaskId) :=
  slots.filterMap fun slot => match slot.scope with
    | .task id => some (slot.projectId, id)
    | .job => none

/-- Whether the mirror has the branch or the base of a task. -/
def GcHost.taskRefsExist : Checked Bool :=
  match host.mirrors.lookup project with
  | none => .ok false
  | some mirror => do
    let refs ← read mirror.refs
    return refs.any fun ref => ref.name == .branch id || ref.name == .base id

/-- What is found out of a task record: its snapshot, and whether it has refs. -/
def GcHost.readTaskRecord (directory : TaskDirectory) : Checked (TaskSnapshot × Bool) := do
  let info ← read directory.info
  let status ← read directory.status
  ensure (info.projectId = project ∧ info.taskId = id) .failed
  let refs ← (if isTerminal status.state then host.taskRefsExist project id else .ok false)
  let slots := host.leases.getD []
  let leased := host.leases.isNone || (liveTaskScopes slots).contains (project, id)
  let activeWork ← (if leased then .ok true else
    host.taskHasActiveWork project directory info status (slots.map (·.jobId)) request.nowMillis)
  ensure (directory.sized = true) .failed
  return (⟨status.state, status.updatedAtMillis, activeWork⟩, refs)

def GcHost.taskRecord : Option (TaskSnapshot × Bool) :=
  (host.tasks.lookup (project, id)).join.bind
    fun directory => (host.readTaskRecord request project id directory).toOption

def GcHost.survey : GcInventory where
  liveLeaseJobs := (host.leases.getD []).map (·.jobId)
  liveTaskScopes := liveTaskScopes (host.leases.getD [])
  leaseUncertain := host.leases.isNone
  tasks project id := (host.taskRecord request project id).map (·.1)
  taskProjects := (host.tasks.entries.filter fun entry => entry.2.isSome).map (·.1.1)
  uncertainTaskProjects := host.strayTasks ++ (host.tasks.keys.filter fun key =>
    (host.taskRecord request key.1 key.2).isNone).map (·.1)

def taskCandidates (snapshot : TaskSnapshot) (refs : Bool) : List GcCandidate :=
  if snapshot.activeWork then []
  else
    (if snapshot.state == .open &&
        expired request.nowMillis snapshot.updatedAtMillis request.taskRetentionMillis
      then [.openTask project id] else []) ++
    (if isTerminal snapshot.state && refs &&
        expired request.nowMillis snapshot.updatedAtMillis request.branchRetentionMillis
      then [.branch project id] else []) ++
    (if isTerminal snapshot.state &&
        expired request.nowMillis snapshot.updatedAtMillis request.jobRetentionMillis
      then [.taskMetadata project id] else [])

def GcHost.collectTasks : List GcCandidate :=
  host.tasks.keys.flatMap fun (project, id) =>
    match host.taskRecord request project id with
    | none => []
    | some (snapshot, refs) => taskCandidates request project id snapshot refs

def jobDue (key : String × String × JobId) (job : JobDirectory) : Bool :=
  job.info == some ⟨key.2.2, key.1, key.2.1⟩ && job.siblings && job.sized && !job.leftovers &&
    !(inventory.leaseUncertain || inventory.liveLeaseJobs.contains key.2.2) &&
    job.status.any fun (state, updatedAtMillis) => state.isTerminal &&
      expired request.nowMillis updatedAtMillis request.jobRetentionMillis

def GcHost.collectJobs : List GcCandidate :=
  (host.jobs.entries.filter fun entry => entry.2.any (jobDue request inventory entry.1)).map
    fun entry => .job entry.1.1 entry.1.2.1 entry.1.2.2

variable (mirror : Mirror)

/-- The age of a session ref: of its file, or of the packed refs, or of its commit. -/
def sessionRefAge (ref : MirrorRef) (objectMillis : Nat) : Option Nat :=
  match ref.file with
  | .loose modified => some (max modified objectMillis)
  | .packed => mirror.packedMillis.map (max · objectMillis)
  | .unreadable => none

def RefName.dated : RefName → Bool
  | .branch _ | .base _ | .malformedTask _ => true
  | _ => false

def RefName.isSession : RefName → Bool
  | .session _ => true
  | _ => false

/-- The task refs of a mirror with the creator dates of their commits. A session ref
without a date is skipped; without the date of another ref there is no answer. -/
def gitTaskRefAges (refs : List MirrorRef) : Checked (List (MirrorRef × Nat)) := do
  ensure (refs.all (fun ref => !ref.name.dated || ref.creatorMillis.isSome) = true) .failed
  return (refs.filter fun ref => ref.name.dated || ref.name.isSession).filterMap
    fun ref => ref.creatorMillis.map (ref, ·)

def sessionDue (ref : MirrorRef) (created : Nat) : Bool :=
  !(inventory.uncertainTaskProjects.contains project || inventory.leaseUncertain ||
    inventory.liveTaskScopes.contains (project, id)) &&
  match inventory.tasks project id with
  | some task => isTerminal task.state && !task.activeWork
  | none => (sessionRefAge mirror ref created).any
      (expired request.nowMillis · request.taskRetentionMillis)

/-- A record that keeps the branch of its task. -/
def TaskSnapshot.keepsBranch (task : TaskSnapshot) : Bool :=
  task.activeWork || !isTerminal task.state ||
    !expired request.nowMillis task.updatedAtMillis request.branchRetentionMillis

def branchDue (created : Nat) : Bool :=
  !inventory.uncertainTaskProjects.contains project &&
  !(inventory.tasks project id).any (·.keepsBranch request) &&
  expired request.nowMillis created request.branchRetentionMillis

def refCandidate (ref : MirrorRef) (created : Nat) : Option GcCandidate :=
  match ref.name with
  | .session id =>
    if sessionDue request inventory project id mirror ref created then some (.session project id)
    else none
  | .branch id | .base id =>
    if branchDue request inventory project id created then some (.branch project id) else none
  | _ => none

def mirrorDue (refs : List MirrorRef) : Checked Bool :=
  if !refs.isEmpty || inventory.taskProjects.contains project ||
      inventory.uncertainTaskProjects.contains project then .ok false
  else return expired request.nowMillis (← read mirror.modifiedMillis) request.branchRetentionMillis

def RefName.isMalformedTask : RefName → Bool
  | .malformedTask _ => true
  | _ => false

/-- The refs of a mirror up to one whose name is malformed; without such a name, perhaps
the mirror itself. -/
def collectMirror : Checked (List GcCandidate) := do
  let refs ← read mirror.refs
  let ages ← gitTaskRefAges refs
  let found := (ages.takeWhile fun age => !age.1.name.isMalformedTask).filterMap
    fun (ref, created) => refCandidate request inventory project mirror ref created
  let empty := mirrorDue request inventory project mirror refs
  return found ++ if ages.any (·.1.name.isMalformedTask) = false ∧ empty = .ok true
    then [.mirror project] else []

def GcHost.collectMirrors : List GcCandidate :=
  host.mirrors.entries.flatMap fun entry =>
    (collectMirror request inventory entry.1 entry.2).toOption.getD []

/-- A branch is a candidate once. -/
def GcHost.collect : List GcCandidate :=
  let inventory := host.survey request
  (host.collectTasks request ++ host.collectJobs request inventory ++
    host.collectMirrors request inventory).dedup

end

/-! ## Applying -/

abbrev GcM : Type → Type := Prog GcError GcHost

def GcHost.log (host : GcHost) (removal : Removal) : GcHost :=
  { host with removed := host.removed ++ [removal] }

/-- Git rewrites the packed refs when it deletes one. -/
def Mirror.without (mirror : Mirror) (ref : MirrorRef) (nowMillis : Nat) : Mirror :=
  { mirror with
    refs := mirror.refs.map (·.filter (· ≠ ref))
    packedMillis := mirror.packedMillis.map (max · nowMillis) }

def GcHost.deleteRef (host : GcHost) (project : String) (ref : MirrorRef) (nowMillis : Nat) :
    GcHost :=
  match host.mirrors.lookup project with
  | none => host
  | some mirror =>
    { host with mirrors := host.mirrors.insert project (mirror.without ref nowMillis) }.log
      (.ref project ref)

section
variable (host : GcHost) (request : GcRequest) (inventory : GcInventory) (project : String)
  (id : TaskId)

/-- Delete the refs that are there and have such a name; says whether there were any. -/
def deleteRefs (named : RefName → Bool) : GcM Bool := do
  let host ← Prog.get
  match host.mirrors.lookup project with
  | none => return false
  | some mirror =>
    let refs ← read mirror.refs
    let found := refs.filter fun ref => named ref.name
    found.forM fun ref => Prog.write (·.deleteRef project ref request.nowMillis)
    return !found.isEmpty

/-- Whether the task of a session ref has no record, or one that lets the ref go. -/
def GcHost.sessionFree : Checked Bool :=
  match host.tasks.lookup (project, id) with
  | none => .ok true
  | some directory =>
    match directory.bind (·.status) with
    | none => .ok false
    | some status =>
      if isTerminal status.state then
        return !(← host.taskIdHasActiveWork project id request.nowMillis)
      else .ok false

/-- The age of the session ref of a task without a record is checked again. -/
def GcHost.sessionOld : Checked Bool :=
  match host.mirrors.lookup project with
  | none => .ok false
  | some mirror =>
    if (inventory.tasks project id).isSome then .ok true
    else do
      let refs ← read mirror.refs
      let ages ← gitTaskRefAges refs
      return ages.any fun (ref, created) => ref.name == .session id &&
        (sessionRefAge mirror ref created).any
          (expired request.nowMillis · request.taskRetentionMillis)

def GcHost.sessionStillDue : Checked Bool :=
  if inventory.uncertainTaskProjects.contains project || inventory.leaseUncertain ||
      inventory.liveTaskScopes.contains (project, id) ||
      host.leases.all (·.any (·.ownsTask project id)) then .ok false
  else do
    if ← host.sessionFree request project id then host.sessionOld request inventory project id
    else return false

def applySessionRef : GcM Bool := do
  let host ← Prog.get
  if ← host.sessionStillDue request inventory project id then
    deleteRefs request project (· == .session id)
  else return false

def GcHost.branchStillDue : Checked Bool :=
  match inventory.tasks project id with
  | none => .ok true
  | some snapshot =>
    if snapshot.keepsBranch request then .ok false
    else do
      let directory ← read (host.tasks.lookup (project, id))
      let directory ← read directory
      let _ ← read directory.status
      return !(← host.taskIdHasActiveWork project id request.nowMillis)

def isDeliveryOf (id : TaskId) : RefName → Bool
  | .delivery owner _ _ => owner == id
  | _ => false

def applyBranch : GcM Bool := do
  let host ← Prog.get
  if ← host.branchStillDue request inventory project id then
    if (host.mirrors.lookup project).isNone then return false
    else
      let branch ← deleteRefs request project (· == .branch id)
      let base ← deleteRefs request project (· == .base id)
      let session ← applySessionRef request inventory project id
      let delivery ← deleteRefs request project (isDeliveryOf id)
      return branch || base || session || delivery
  else return false

def GcHost.jobStillDue (worktree : String) (id : JobId) : Checked Bool :=
  match host.jobs.lookup (project, worktree, id) with
  | none => .ok false
  | some job => do
    let job ← read job
    let info ← read job.info
    let (state, updatedAtMillis) ← read job.status
    if !job.siblings then return false
    let slots ← read host.leases
    return !(slots.any (·.jobId == id)) && decide (info = ⟨id, project, worktree⟩) &&
      state.isTerminal && expired request.nowMillis updatedAtMillis request.jobRetentionMillis &&
      !job.leftovers

def applyJob (worktree : String) (id : JobId) : GcM Bool := do
  let host ← Prog.get
  if ← host.jobStillDue request project worktree id then
    Prog.write fun host =>
      { host with jobs := host.jobs.erase (project, worktree, id) }.log (.job project worktree id)
    return true
  else return false

def GcHost.mirrorStillDue : Checked Bool :=
  match host.mirrors.lookup project with
  | none => .ok false
  | some mirror => do mirrorDue request inventory project mirror (← read mirror.refs)

def applyMirror : GcM Bool := do
  let host ← Prog.get
  if ← host.mirrorStillDue request inventory project then
    Prog.write fun host => { host with mirrors := host.mirrors.erase project }.log (.mirror project)
    return true
  else return false

def GcHost.metadataStillDue : Checked Bool :=
  if (inventory.tasks project id).any (isTerminal ·.state) then do
    if ← host.taskIdHasActiveWork project id request.nowMillis then return false
    match host.tasks.lookup (project, id) with
    | none => return false
    | some directory =>
      let directory ← read directory
      let info ← read directory.info
      let status ← read directory.status
      return decide (info.projectId = project ∧ info.taskId = id) && isTerminal status.state &&
        expired request.nowMillis status.updatedAtMillis request.jobRetentionMillis
  else .ok false

def applyMetadata : GcM Bool := do
  let host ← Prog.get
  if ← host.metadataStillDue request inventory project id then
    Prog.write fun host =>
      { host with tasks := host.tasks.erase (project, id) }.log (.task project id)
    return true
  else return false

def closed (directory : TaskDirectory) (status : StoredStatus) (nowMillis : Nat) : TaskDirectory :=
  { directory with
    status := some { status with state := .closed, updatedAtMillis := nowMillis } }

/-- An open task is closed; only its workspace is removed. -/
def applyOpen : GcM Bool := do
  let host ← Prog.get
  if ← host.taskIdHasActiveWork project id request.nowMillis then return false
  else
    let directory ← read (host.tasks.lookup (project, id))
    let directory ← read directory
    let status ← read directory.status
    let slots ← read host.leases
    if status.state ≠ .open ∨ slots.any (·.ownsTask project id) then return false
    else
      let closed := some (closed directory status request.nowMillis)
      Prog.write fun host => { host with tasks := host.tasks.insert (project, id) closed }
      return true

end

def applyCandidate (request : GcRequest) (inventory : GcInventory) : GcCandidate → GcM Bool
  | .openTask project id => applyOpen request project id
  | .taskMetadata project id => applyMetadata request inventory project id
  | .branch project id => applyBranch request inventory project id
  | .session project id => applySessionRef request inventory project id
  | .job project worktree id => applyJob request project worktree id
  | .mirror project => applyMirror request inventory project

def candidateRank : GcCandidate → Nat
  | .branch _ _ | .session _ _ => 0
  | .job _ _ _ => 1
  | .openTask _ _ | .taskMetadata _ _ => 2
  | .mirror _ => 3

/-- By rank, then by the texts of identifier and reason, which are given. -/
def sortCandidates (text : GcCandidate → String) (candidates : List GcCandidate) :
    List GcCandidate :=
  candidates.insertionSort fun a b => candidateRank a < candidateRank b ∨
    (candidateRank a = candidateRank b ∧ text a ≤ text b)

/-- One pass. An error ends it; what was applied stays applied. -/
def run (text : GcCandidate → String) (request : GcRequest) : GcM Unit := do
  request.validate
  let host ← Prog.get
  if request.apply then
    (sortCandidates text (host.collect request)).forM fun candidate => do
      let _ ← applyCandidate request (host.survey request) candidate

end MacWorker.Gc
