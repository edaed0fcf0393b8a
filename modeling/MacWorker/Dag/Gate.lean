import MacWorker.Dag.Record
import MacWorker.Queue.World

/-! # Parent gates

Whether a parent lets its children start. A parent without integration must be
closed with a `done` outcome; a parent that is configured for integration must
have been integrated and its result imported. The gates of a whole record are
computed once for each call, from the node states the call found. -/
namespace MacWorker.Dag
open Std (TreeMap)
open Fallible

inductive ParentGate where
  | ready
  | waiting
  | failed
  | integrationFailed
  deriving DecidableEq

/-! ## Integration evidence -/

inductive IntegrationStatus where
  | armed
  | pending
  | fetching
  | resolving
  | verifying
  | commitReady
  | pushing
  | published
  | retryWait
  | parked
  | integrated
  | blocked
  | revoked
  deriving DecidableEq

inductive IntegrationCode where
  | authFailed | network | policyRejected | targetMissing | baseNotOnTarget | wipBase
  | targetMovedExhausted | conflictBudgetExhausted | resolutionIncomplete | checksFailed
  | checksNotRun | resolveBlocked | followupLimit | verifyChangedTree | verifyTreeMismatch
  | turnQueueTimeout | workerOffline | workspaceMissing | unavailable | publishTargetCollision
  | conflictListTooLarge | stateInvalid | dependencyBlocked | dependencyNotIntegrated
  | stopUnconfirmed | alreadyCommitted
  deriving DecidableEq

structure IntegrationSnapshot where
  state : IntegrationStatus
  sourceTurnId : TurnId
  blockedCode : Option IntegrationCode

structure IntegrationReceipt where
  targetHead : BaseOid
  mergeOid : Option BaseOid
  imported : Bool

structure IntegrationAuxiliaryIntent where
  turnId : TurnId
  completed : Bool

structure IntegrationRecord where
  snapshot : IntegrationSnapshot
  auxiliaries : List IntegrationAuxiliaryIntent
  receipt : Option IntegrationReceipt

/-- What the store of integration evidence answers about a task. -/
structure IntegrationReader where
  /-- A failed recovery keeps the evidence of this task. -/
  retainsEvidence : TaskId → Bool
  /-- Whether the task has a policy, and its record. -/
  readTask : TaskId → Except WorkerError (Bool × Option IntegrationRecord)

/-- Everything one locked call on a batch graph reads beside the graph. -/
structure DagWorld where
  task : TaskId → Option LocalTaskRecord
  turnIds : TaskId → List TurnId
  verdict : ProcessIdentity → Queue.RunnerLivenessVerdict
  /-- Absent when the integration store cannot be opened. -/
  integration : Option IntegrationReader

/-! ## One parent -/

def parentGate (record : LocalTaskRecord) : ParentGate :=
  match record.status.state with
  | .abandoned | .lost => .failed
  | .closed => if record.status.lastOutcome = some .done then .ready else .failed
  | .queued | .active => .waiting
  | .open =>
    match record.status.lastOutcome with
    | some outcome => if outcome.aggregate ≠ 0 then .failed else .waiting
    | none => .waiting

/-- The integrated result is the task's imported head, and its last turn is
either the integrated one or a completed turn of the integration itself. -/
def integratedReady (ordinary : LocalTaskRecord) (record : IntegrationRecord) : Bool :=
  record.receipt.any fun receipt =>
    let head := receipt.mergeOid.getD receipt.targetHead
    receipt.imported && ordinary.fetchedHead == some head && ordinary.status.headOid == some head &&
      (ordinary.status.state == .open || ordinary.status.state == .closed) &&
      ordinary.status.lastOutcome == some .done && ordinary.runner.isNone &&
      ordinary.autoContinueIntent.isNone &&
      ordinary.status.turns.getLast?.any fun turn =>
        turn.terminal.isSome && turn.outcome == some .done &&
          (turn.turnId == record.snapshot.sourceTurnId ||
            record.auxiliaries.any fun aux => aux.turnId == turn.turnId && aux.completed)

/-- The gate of a parent that is configured for integration. -/
def integrationGate (ordinary : LocalTaskRecord) (integration : Option IntegrationRecord) :
    ParentGate :=
  if ordinary.status.state = .abandoned ∨ ordinary.status.state = .lost then .integrationFailed
  else
    match integration with
    | none => if ordinary.status.state = .closed then .integrationFailed else .waiting
    | some record =>
      if record.snapshot.state = .integrated then
        if integratedReady ordinary record then .ready else .waiting
      else if (record.snapshot.state = .revoked ∧ (ordinary.status.state = .closed ∨
            record.snapshot.blockedCode = some .dependencyNotIntegrated)) ∨
          (ordinary.status.state = .closed ∧ record.snapshot.state = .blocked) then
        .integrationFailed
      else .waiting

def parentGateAt (world : DagWorld) (ordinary : LocalTaskRecord) :
    Except WorkerError ParentGate :=
  match world.integration with
  | none => .ok .waiting
  | some reader =>
    if reader.retainsEvidence ordinary.info.taskId then .ok .waiting
    else
      match reader.readTask ordinary.info.taskId with
      | .error e => .error e
      | .ok (false, _) => .ok (parentGate ordinary)
      | .ok (true, integration) => .ok (integrationGate ordinary integration)

/-! ## All parents of a record -/

def nodeGate (world : DagWorld) (node : DagNode) : Except WorkerError ParentGate :=
  match node.state with
  | .blocked => .ok .failed
  | .waiting | .claimed => .ok .waiting
  | .submitted =>
    match world.task node.taskId with
    | some record => parentGateAt world record
    | none => .ok .waiting

def insertGate (world : DagWorld) (gates : TreeMap String ParentGate) (entry : String × DagNode) :
    Except WorkerError (TreeMap String ParentGate) := do
  let gate ← nodeGate world entry.2
  pure (gates.insert entry.1 gate)

def dagParentGates (world : DagWorld) (dag : DagRecord) :
    Except WorkerError (TreeMap String ParentGate) :=
  dag.nodes.toList.foldlM (insertGate world) ∅

def parentsReady (node : DagNode) (gates : TreeMap String ParentGate) : Bool :=
  (node.dependsOn.all fun dep => gates[dep]? == some .ready) &&
    match node.base with
    | .frozen .. => true
    | .from _ => node.boundOid.isSome

def parentsFailed (node : DagNode) (gates : TreeMap String ParentGate) : Bool :=
  node.dependsOn.any fun dep =>
    gates[dep]? == some .failed || gates[dep]? == some .integrationFailed

def failedParentCode (node : DagNode) (gates : TreeMap String ParentGate) : String :=
  if node.dependsOn.any fun dep => gates[dep]? == some .integrationFailed then
    "INTEGRATION_DEPENDENCY_NOT_INTEGRATED"
  else "DAG_PARENT_FAILED"

/-! ## What a gate says about the parent -/

section
variable {world : DagWorld} {entries : List (String × DagNode)} {dag : DagRecord}
  {gates : TreeMap String ParentGate} {id : String} {gate : ParentGate}

theorem insertGates_sound {start} (h : entries.foldlM (insertGate world) start = .ok gates)
    (hg : gates[id]? = some gate) :
    start[id]? = some gate ∨ ∃ node, (id, node) ∈ entries ∧ nodeGate world node = .ok gate := by
  induction entries generalizing start with
  | nil =>
    obtain rfl := pure_eq_ok.mp h
    exact .inl hg
  | cons entry rest ih =>
    rw [List.foldlM_cons] at h
    obtain ⟨next, hin, hr⟩ := of_bind h
    obtain ⟨own, how, hn⟩ := of_bind hin
    obtain rfl := pure_eq_ok.mp hn
    rcases ih hr with hs | ⟨node, hm, hno⟩
    · rw [TreeMap.getElem?_insert] at hs
      split at hs
      · rename_i hk
        obtain rfl := Option.some.inj hs
        obtain rfl := compare_eq_iff_eq.mp hk
        exact .inr ⟨entry.2, List.mem_cons_self, how⟩
      · exact .inl hs
    · exact .inr ⟨node, List.mem_cons_of_mem entry hm, hno⟩

theorem insertGates_complete {start} (h : entries.foldlM (insertGate world) start = .ok gates)
    (hid : id ∈ start ∨ id ∈ entries.map Prod.fst) : id ∈ gates := by
  induction entries generalizing start with
  | nil =>
    obtain rfl := pure_eq_ok.mp h
    simpa using hid
  | cons entry rest ih =>
    rw [List.foldlM_cons] at h
    obtain ⟨next, hin, hr⟩ := of_bind h
    obtain ⟨own, _, hn⟩ := of_bind hin
    obtain rfl := pure_eq_ok.mp hn
    apply ih hr
    rw [TreeMap.mem_insert, compare_eq_iff_eq]
    rw [List.map_cons, List.mem_cons] at hid
    rcases hid with hs | rfl | ht
    · exact .inl (.inr hs)
    · exact .inl (.inl rfl)
    · exact .inr ht

theorem dagParentGates_iff (h : dagParentGates world dag = .ok gates) :
    gates[id]? = some gate ↔
      ∃ node, dag.nodes[id]? = some node ∧ nodeGate world node = .ok gate := by
  have hs : ∀ g, gates[id]? = some g →
      ∃ node, dag.nodes[id]? = some node ∧ nodeGate world node = .ok g := by
    intro g hg
    rcases insertGates_sound h hg with hem | ⟨node, hm, hn⟩
    · simp at hem
    · exact ⟨node, TreeMap.mem_toList_iff_getElem?_eq_some.mp hm, hn⟩
  refine ⟨hs gate, fun ⟨node, hn, hga⟩ => ?_⟩
  have hk : id ∈ dag.nodes.toList.map Prod.fst :=
    List.mem_map.mpr ⟨_, TreeMap.mem_toList_iff_getElem?_eq_some.mpr hn, rfl⟩
  obtain ⟨g, hg⟩ := Option.isSome_iff_exists.mp
    (TreeMap.mem_iff_isSome_getElem?.mp (insertGates_complete h (.inr hk)))
  obtain ⟨node', hn', hg'⟩ := hs g hg
  rw [hn] at hn'
  obtain rfl := Option.some.inj hn'
  rw [hga] at hg'
  rw [hg, Except.ok.inj hg']

theorem nodeGate_ready {node} (h : nodeGate world node = .ok .ready) : node.state = .submitted := by
  unfold nodeGate at h
  split at h
  · cases h
  · cases h
  · cases h
  · assumption

theorem parentsReady_iff {node} : parentsReady node gates = true ↔
      (∀ dep ∈ node.dependsOn, gates[dep]? = some .ready) ∧
        ∀ parent, node.parentId = some parent → node.boundOid.isSome = true := by
  unfold parentsReady DagNode.parentId
  cases node.base <;> simp

theorem parentsFailed_eq_false_iff {node} : parentsFailed node gates = false ↔
      ∀ dep ∈ node.dependsOn, gates[dep]? ≠ some .failed ∧
        gates[dep]? ≠ some .integrationFailed := by
  simp [parentsFailed]

end

end MacWorker.Dag
