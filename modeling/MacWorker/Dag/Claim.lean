import MacWorker.Dag.Gate

/-! # Claiming, binding and submitting nodes

The calls that move a stored batch graph. Each runs under the state lock and makes a few
durable writes: to the run record, the graph, and the entry of the run in the index of
pending graphs. A call is modelled by its answer together with its writes in order, so
that one that dies between two of them has an exact meaning.

A claim scans the nodes in the order of their keys. What it does to a node depends on that
node and on the gates computed before the scan only; `NodeStep` lists the possibilities,
and `claimScan_spec` says that a scan is one such step at each key. -/
namespace MacWorker.Dag
open List
open Std (TreeMap)
open Fallible

/-! ## Runs and the store -/

/-- The tasks of a run that exist so far. -/
structure RunRecord where
  runId : Uuid
  name : Option String
  taskIds : List TaskId
  (maxParallel createdAtMillis : Nat)
  deriving DecidableEq

def isControl (c : Char) : Bool := c.toNat < 32 || (127 ≤ c.toNat && c.toNat < 160)

def validateOptionalText (value : String) (maxBytes : Nat) (label : String) :
    Except WorkerError Unit :=
  ensure (value ≠ "" ∧ (bytes value).length ≤ maxBytes ∧ value.toList.any isControl = false)
    (configInvalid (label ++ " is empty, too long, or contains a control character"))

def RunRecord.validate (run : RunRecord) : Except WorkerError Unit := do
  checkSome run.name fun name => validateOptionalText name 120 "run name"
  ensure (run.maxParallel ≠ 0) (configInvalid "max_parallel must be greater than zero")

/-- The run of a graph that was stored without one. -/
def RunRecord.ofDag (dag : DagRecord) : Except WorkerError RunRecord := do
  let run : RunRecord := ⟨dag.runId, dag.name, [], dag.maxParallel, dag.createdAtMillis⟩
  run.validate
  pure run

def RunRecord.withAppendedTaskId (run : RunRecord) (taskId : TaskId) : RunRecord :=
  if taskId ∈ run.taskIds then run else { run with taskIds := run.taskIds ++ [taskId] }

structure DagStore where
  dag : Option DagRecord
  run : Option RunRecord
  /-- Whether the run has an entry in the index of pending graphs. -/
  pending : Bool

inductive DagWrite where
  | run (record : RunRecord)
  | dag (record : DagRecord)
  | pending (entry : Bool)

namespace DagStore

def write (store : DagStore) : DagWrite → DagStore
  | .run record => { store with run := some record }
  | .dag record => { store with dag := some record }
  | .pending entry => { store with pending := entry }

def writeAll (store : DagStore) (writes : List DagWrite) : DagStore := writes.foldl write store

def node (store : DagStore) (id : String) : Option DagNode := store.dag.bind (·.nodes[id]?)

/-- A stored graph is checked each time it is read. -/
def loadRunDag (store : DagStore) (runId : Uuid) : Except WorkerError (Option DagRecord) :=
  match store.dag with
  | none => .ok none
  | some dag => do
    dag.validate.mapError fun _ => .invalidState "DAG record is corrupt"
    ensure (dag.runId = runId) (.invalidState "DAG filename and record identity differ")
    pure (some dag)

end DagStore

def syncPendingDag (dag : DagRecord) : DagWrite := .pending (!dagRunIsQuiescent dag)

/-- A graph is replaced in one step, then the index follows. -/
def persistDag (dag : DagRecord) : Except WorkerError (List DagWrite) := do
  dag.validate
  pure [.dag dag, syncPendingDag dag]

/-- An id that the run has already costs no write. -/
def appendRunTaskId (run : RunRecord) (taskId : TaskId) : List DagWrite :=
  if taskId ∈ run.taskIds then [] else [.run (run.withAppendedTaskId taskId)]

/-! ## Claims -/

structure DagClaim where
  batchId : String
  node : DagNode
  deriving DecidableEq

inductive ClaimedNodeAction where
  | markSubmitted
  | «continue»
  | retake
  | skipLive

def claimedNodeAction (claimedBy : Option ProcessIdentity) (caller : ProcessIdentity)
    (ownerLive taskExists submissionComplete : Bool) : ClaimedNodeAction :=
  if taskExists && submissionComplete then .markSubmitted
  else
    match claimedBy with
    | some owner => if owner = caller then .continue else if ownerLive then .skipLive else .retake
    | none => .retake

def dagSubmissionComplete (record : LocalTaskRecord) : Bool :=
  record.submissionIntentTurnId.isNone && record.submissionRollbackTurnId.isNone &&
    record.abandonCode != some "SUBMISSION_ROLLBACK_INCOMPLETE"

namespace DagWorld

def submissionComplete (world : DagWorld) (node : DagNode) : Bool :=
  (world.task node.taskId).any dagSubmissionComplete &&
    (world.turnIds node.taskId).contains node.turnId

def ownerLive (world : DagWorld) (node : DagNode) : Bool :=
  node.claimedBy.any fun owner => world.verdict owner != .exited

def claimedAction (world : DagWorld) (caller : ProcessIdentity) (node : DagNode) :
    ClaimedNodeAction :=
  claimedNodeAction node.claimedBy caller (world.ownerLive node)
    (world.task node.taskId).isSome (world.submissionComplete node)

end DagWorld

structure NodeOutcome where
  update : Option DagNode
  /-- The node's task is listed in the run. -/
  materialized : Bool
  /-- The scan ends here and hands the node out. -/
  handed : Bool

def NodeOutcome.kept : NodeOutcome := ⟨none, false, false⟩

def NodeOutcome.after (outcome : NodeOutcome) (node : DagNode) : DagNode :=
  outcome.update.getD node

def visitNode (world : DagWorld) (gates : TreeMap String ParentGate) (caller : ProcessIdentity)
    (nowMillis : Nat) (node : DagNode) : NodeOutcome :=
  if node.state = .submitted then ⟨none, true, false⟩
  else if node.state ≠ .blocked ∧ parentsFailed node gates then
    ⟨some (node.markBlocked (failedParentCode node gates)), false, false⟩
  else
    match node.state with
    | .blocked | .submitted => .kept
    | .claimed =>
      match world.claimedAction caller node with
      | .markSubmitted => ⟨some node.markSubmitted, true, false⟩
      | .skipLive => .kept
      | .continue => if node.executionOid.isSome then ⟨none, false, true⟩ else .kept
      | .retake =>
        if node.executionOid.isSome then ⟨some (node.takeClaim caller nowMillis), false, true⟩
        else .kept
    | .waiting =>
      if parentsReady node gates then ⟨some (node.takeClaim caller nowMillis), false, true⟩
      else .kept

/-- The state of a scan: the graph and the run as they stand, and the writes
made so far. -/
structure Scan where
  dag : DagRecord
  run : RunRecord
  writes : List DagWrite
  changed : Bool

def Scan.update (scan : Scan) (id : String) (update : Option DagNode) : Scan :=
  match update with
  | none => scan
  | some node =>
    { scan with dag := { scan.dag with nodes := scan.dag.nodes.insert id node }, changed := true }

def Scan.list (scan : Scan) (materialized : Bool) (taskId : TaskId) : Scan :=
  if materialized then
    { scan with
      run := scan.run.withAppendedTaskId taskId
      writes := scan.writes ++ appendRunTaskId scan.run taskId }
  else scan

def Scan.record (scan : Scan) (id : String) (taskId : TaskId) (outcome : NodeOutcome) : Scan :=
  (scan.list outcome.materialized taskId).update id outcome.update

def claimScan (visit : DagNode → NodeOutcome) : List String → Scan → Scan × Option DagClaim
  | [], scan => (scan, none)
  | id :: rest, scan =>
    match scan.dag.nodes[id]? with
    | none => claimScan visit rest scan
    | some node =>
      let next := scan.record id node.taskId (visit node)
      if (visit node).handed then (next, some ⟨id, (visit node).after node⟩)
      else claimScan visit rest next

/-- The run of a stored graph, made up from the graph if it is missing. -/
def completeUnpublishedDagRun (dag : DagRecord) (run : Option RunRecord) :
    Except WorkerError (RunRecord × List DagWrite) :=
  match run with
  | some run => .ok (run, [syncPendingDag dag])
  | none => do
    let run ← RunRecord.ofDag dag
    pure (run, [.run run, syncPendingDag dag])

/-- A graph that did not change is not written; a node that is taken always
changes it. -/
def finishClaim (scan : Scan) (claim : Option DagClaim) :
    Except WorkerError (Option DagClaim) × List DagWrite :=
  if scan.changed then
    match persistDag scan.dag with
    | .error e => (.error e, scan.writes)
    | .ok writes => (.ok claim, scan.writes ++ writes)
  else (.ok claim, scan.writes)

def claimDag (world : DagWorld) (caller : ProcessIdentity) (nowMillis : Nat) (dag : DagRecord)
    (run : Option RunRecord) : Except WorkerError (Option DagClaim) × List DagWrite :=
  match completeUnpublishedDagRun dag run with
  | .error e => (.error e, [])
  | .ok (run, writes) =>
    match dagParentGates world dag with
    | .error e => (.error e, writes)
    | .ok gates =>
      let result := claimScan (visitNode world gates caller nowMillis) dag.nodes.keys
        ⟨dag, run, writes, false⟩
      finishClaim result.1 result.2

def claimNextEligibleDagNode (world : DagWorld) (runId : Uuid) (caller : ProcessIdentity)
    (nowMillis : Nat) (store : DagStore) : Except WorkerError (Option DagClaim) × List DagWrite :=
  match store.loadRunDag runId with
  | .error e => (.error e, [])
  | .ok none => (.ok none, [])
  | .ok (some dag) => claimDag world caller nowMillis dag store.run

/-! ## Submission and binding -/

def DagStore.addressed (store : DagStore) (runId : Uuid) (batchId : String) :
    Except WorkerError (DagRecord × DagNode) := do
  match ← store.loadRunDag runId with
  | none => .error (.invalidState "DAG record is missing")
  | some dag =>
    match dag.nodes[batchId]? with
    | none => .error (.invalidState "DAG node is missing")
    | some node => .ok (dag, node)

/-- The node's own state is looked at only to skip a repeated call. -/
def submitNode (dag : DagRecord) (node : DagNode) (batchId : String) :
    Except WorkerError (List DagWrite) :=
  if node.state = .submitted then .ok []
  else persistDag { dag with nodes := dag.nodes.insert batchId node.markSubmitted }

def markDagNodeSubmitted (runId : Uuid) (batchId : String) (taskId : TaskId) (store : DagStore) :
    Except WorkerError Unit × List DagWrite :=
  match store.addressed runId batchId with
  | .error e => (.error e, [])
  | .ok (dag, node) =>
    if node.taskId ≠ taskId then
      (.error (.invalidState "DAG node task ID does not match submit"), [])
    else
      match store.run with
      | none => (.error .notFound, [])
      | some run =>
        match submitNode dag node batchId with
        | .error e => (.error e, appendRunTaskId run taskId)
        | .ok writes => (.ok (), appendRunTaskId run taskId ++ writes)

/-- A binding is made once; making it again is accepted and changes nothing. -/
def bindNode (node : DagNode) (boundOid : BaseOid) (boundTurnId : TurnId) (canonical : String) :
    Except WorkerError DagNode :=
  match node.boundOid, node.boundTurnId, node.pinRef with
  | none, none, none =>
    .ok { node with
      boundOid := some boundOid, boundTurnId := some boundTurnId, pinRef := some canonical }
  | some oid, some turn, some pin =>
    if oid = boundOid ∧ turn = boundTurnId ∧ pin = canonical then .ok node
    else .error (configInvalid "from: binding is immutable after the first verified pin")
  | _, _, _ => .error (configInvalid "from: binding is immutable after the first verified pin")

def publishBinding (runId : Uuid) (batchId : String) (boundOid : BaseOid) (boundTurnId : TurnId)
    (pinRef : String) (store : DagStore) : Except WorkerError (List DagWrite) := do
  ensure (pinRef = dagPinRef runId batchId)
    (configInvalid "DAG bind pin_ref must be the canonical TransferRepo pin")
  let (dag, node) ← store.addressed runId batchId
  let node ← bindNode node boundOid boundTurnId (dagPinRef runId batchId)
  persistDag { dag with nodes := dag.nodes.insert batchId node }

def publishDagBinding (runId : Uuid) (batchId : String) (boundOid : BaseOid)
    (boundTurnId : TurnId) (pinRef : String) (store : DagStore) :
    Except WorkerError Unit × List DagWrite :=
  match publishBinding runId batchId boundOid boundTurnId pinRef store with
  | .error e => (.error e, [])
  | .ok writes => (.ok (), writes)

/-! ## What a scan does -/

section
variable {world : DagWorld} {gates : TreeMap String ParentGate} {caller : ProcessIdentity}
  {nowMillis : Nat} {node : DagNode}

/-- What can become of a node in a claim by `caller`, and whether it is handed
out. -/
inductive NodeStep (world : DagWorld) (gates : TreeMap String ParentGate)
    (caller : ProcessIdentity) (nowMillis : Nat) (node : DagNode) : DagNode → Bool → Prop
  | kept : NodeStep world gates caller nowMillis node node false
  | blocked (hstate : node.state = .waiting ∨ node.state = .claimed)
      (hfailed : parentsFailed node gates = true) :
      NodeStep world gates caller nowMillis node
        (node.markBlocked (failedParentCode node gates)) false
  | submitted (hstate : node.state = .claimed) :
      NodeStep world gates caller nowMillis node node.markSubmitted false
  | continued (hstate : node.state = .claimed) (hfine : parentsFailed node gates = false)
      (howner : node.claimedBy = some caller) (hoid : node.executionOid.isSome = true) :
      NodeStep world gates caller nowMillis node node true
  | retaken (hstate : node.state = .claimed) (hfine : parentsFailed node gates = false)
      (hdead : ∀ owner, node.claimedBy = some owner → world.verdict owner = .exited)
      (hoid : node.executionOid.isSome = true) :
      NodeStep world gates caller nowMillis node (node.takeClaim caller nowMillis) true
  | taken (hstate : node.state = .waiting) (hfine : parentsFailed node gates = false)
      (hready : parentsReady node gates = true) :
      NodeStep world gates caller nowMillis node (node.takeClaim caller nowMillis) true

theorem claimedAction_continue (h : world.claimedAction caller node = .continue) :
    node.claimedBy = some caller := by
  unfold DagWorld.claimedAction claimedNodeAction at h
  obtain ⟨-, h⟩ := of_unless h
  split at h
  · rename_i owner how
    split at h
    · rename_i heq
      rw [how, heq]
    · split at h <;> cases h
  · cases h

theorem claimedAction_retake (h : world.claimedAction caller node = .retake) :
    ∀ owner, node.claimedBy = some owner → world.verdict owner = .exited := by
  intro owner how
  unfold DagWorld.claimedAction claimedNodeAction at h
  obtain ⟨-, h⟩ := of_unless h
  rw [how] at h
  dsimp only at h
  split at h
  · cases h
  · obtain ⟨hl, h⟩ := of_unless h
    simpa [DagWorld.ownerLive, how] using hl

theorem visitNode_step : NodeStep world gates caller nowMillis node
      ((visitNode world gates caller nowMillis node).after node)
      (visitNode world gates caller nowMillis node).handed := by
  unfold visitNode
  split
  · exact .kept
  · split
    · rename_i hsu hf
      refine .blocked ?_ hf.2
      cases hs : node.state with
      | waiting => exact .inl rfl
      | claimed => exact .inr rfl
      | submitted => exact absurd hs hsu
      | blocked => exact absurd hs hf.1
    · rename_i hsu hf
      split
      · exact .kept
      · exact .kept
      · rename_i hs
        have hfi : parentsFailed node gates = false := by simpa [hs] using hf
        split
        · exact .submitted hs
        · exact .kept
        · rename_i ha
          split
          · rename_i hoi
            exact .continued hs hfi (claimedAction_continue ha) hoi
          · exact .kept
        · rename_i ha
          split
          · rename_i hoi
            exact .retaken hs hfi (claimedAction_retake ha) hoi
          · exact .kept
      · rename_i hs
        have hfi : parentsFailed node gates = false := by simpa [hs] using hf
        split
        · rename_i hr
          exact .taken hs hfi hr
        · exact .kept

end

/-- A write that leaves the graph alone: a run, or the entry of the stored graph. -/
inductive DagWrite.Beside (dag : Option DagRecord) : DagWrite → Prop
  | run (record : RunRecord) : Beside dag (.run record)
  | entry {stored : DagRecord} (h : dag = some stored) :
      Beside dag (.pending (!dagRunIsQuiescent stored))

def AllBeside (dag : Option DagRecord) (writes : List DagWrite) : Prop :=
  ∀ write ∈ writes, write.Beside dag

theorem appendRunTaskId_beside {dag run taskId} : AllBeside dag (appendRunTaskId run taskId) := by
  unfold appendRunTaskId
  split
  · simp [AllBeside]
  · simpa [AllBeside] using DagWrite.Beside.run _

section
variable {visit : DagNode → NodeOutcome} {scan scan' : Scan} {ids : List String}
  {claim : Option DagClaim} {id : String} {node : DagNode}

theorem Scan.list_dag (materialized : Bool) (taskId : TaskId) :
    (scan.list materialized taskId).dag = scan.dag := by
  unfold Scan.list
  split <;> rfl

theorem Scan.list_changed (materialized : Bool) (taskId : TaskId) :
    (scan.list materialized taskId).changed = scan.changed := by
  unfold Scan.list
  split <;> rfl

theorem Scan.record_nodes {outcome} (hn : scan.dag.nodes[id]? = some node) (k : String) :
    (scan.record id node.taskId outcome).dag.nodes[k]? =
      if k = id then some (outcome.after node) else scan.dag.nodes[k]? := by
  unfold Scan.record Scan.update NodeOutcome.after
  cases outcome.update with
  | none =>
    rw [Scan.list_dag]
    by_cases hk : k = id
    · simp [hk, hn]
    · simp [hk]
  | some new =>
    dsimp only
    rw [Scan.list_dag, TreeMap.getElem?_insert]
    by_cases hk : k = id
    · simp [hk]
    · simp [hk, Ne.symm hk]

/-- A scan is one visit at each key it reaches: `R` relates every node to what
becomes of it, and a node it hands out to what is handed. -/
structure Scanned (R : DagNode → DagNode → Bool → Prop) (dag dag' : DagRecord)
    (claim : Option DagClaim) : Prop where
  absent : ∀ id : String, dag.nodes[id]? = none → dag'.nodes[id]? = none
  present : ∀ (id : String) (node : DagNode), dag.nodes[id]? = some node → ∃ node' handed,
    dag'.nodes[id]? = some node' ∧ R node node' handed ∧
      ∀ c, claim = some c → c.batchId = id → handed = true ∧ c.node = node'
  found : ∀ c, claim = some c → ∃ node, dag.nodes[c.batchId]? = some node

theorem claimScan_frame (h : claimScan visit ids scan = (scan', claim)) (hid : id ∉ ids) :
    scan'.dag.nodes[id]? = scan.dag.nodes[id]? ∧ ∀ c, claim = some c → c.batchId ≠ id := by
  induction ids generalizing scan with
  | nil =>
    rw [claimScan] at h
    cases h
    exact ⟨rfl, fun c hc => by cases hc⟩
  | cons next rest ih =>
    rw [mem_cons, not_or] at hid
    obtain ⟨hne, hr⟩ := hid
    unfold claimScan at h
    split at h
    · exact ih h hr
    · rename_i node hn
      dsimp only at h
      split at h
      · cases h
        refine ⟨by rw [Scan.record_nodes hn, if_neg hne], fun c hc => ?_⟩
        cases hc
        exact fun he => hne he.symm
      · obtain ⟨hs, hcl⟩ := ih h hr
        exact ⟨by rw [hs, Scan.record_nodes hn, if_neg hne], hcl⟩

section
variable {R : DagNode → DagNode → Bool → Prop} {own : DagNode} {outcome : NodeOutcome}
  {dag' : DagRecord}

theorem Scanned.of_handed (hke : ∀ node, R node node false)
    (how : scan.dag.nodes[id]? = some own) (hv : R own (outcome.after own) true) :
    Scanned R scan.dag (scan.record id own.taskId outcome).dag (some ⟨id, outcome.after own⟩) := by
  have hn := @Scan.record_nodes scan id own outcome how
  refine ⟨fun k hk => ?_, fun k node hno => ?_, fun c hc => ?_⟩
  · rw [hn, if_neg (by rintro rfl; simp [how] at hk), hk]
  · by_cases hk : k = id
    · subst hk
      cases how.symm.trans hno
      refine ⟨_, true, by rw [hn, if_pos rfl], hv, fun c hc _ => ?_⟩
      cases hc
      exact ⟨rfl, rfl⟩
    · refine ⟨node, false, by rw [hn, if_neg hk, hno], hke node, fun c hc hid => ?_⟩
      cases hc
      exact absurd hid.symm hk
  · cases hc
    exact ⟨own, how⟩

/-- A visit before the rest of the scan, which never comes back to the key. -/
theorem Scanned.of_visited (how : scan.dag.nodes[id]? = some own)
    (hv : R own (outcome.after own) false)
    (hr : Scanned R (scan.record id own.taskId outcome).dag dag' claim)
    (hf : dag'.nodes[id]? = (scan.record id own.taskId outcome).dag.nodes[id]?)
    (hot : ∀ c, claim = some c → c.batchId ≠ id) : Scanned R scan.dag dag' claim := by
  have hno := @Scan.record_nodes scan id own outcome how
  refine ⟨fun k hk => ?_, fun k node hn => ?_, fun c hc => ?_⟩
  · apply hr.absent
    rw [hno, if_neg (by rintro rfl; simp [how] at hk), hk]
  · by_cases hk : k = id
    · subst hk
      cases how.symm.trans hn
      refine ⟨_, false, by rw [hf, hno, if_pos rfl], hv, fun c hc hid => ?_⟩
      exact absurd hid (hot c hc)
    · exact hr.present k node (by rw [hno, if_neg hk, hn])
  · obtain ⟨node, hn⟩ := hr.found c hc
    rw [hno, if_neg (hot c hc)] at hn
    exact ⟨node, hn⟩

/-- **One visit at each key.** -/
theorem claimScan_spec (hk : ∀ node, R node node false)
    (hv : ∀ node, R node ((visit node).after node) (visit node).handed)
    (hn : ids.Nodup) (h : claimScan visit ids scan = (scan', claim)) :
    Scanned R scan.dag scan'.dag claim := by
  induction ids generalizing scan with
  | nil =>
    rw [claimScan] at h
    cases h
    refine ⟨fun _ h => h, fun id node hno => ⟨node, false, hno, hk node, ?_⟩, ?_⟩
    · intro c hc
      cases hc
    · intro c hc
      cases hc
  | cons id rest ih =>
    obtain ⟨hne, hr⟩ := nodup_cons.mp hn
    unfold claimScan at h
    split at h
    · exact ih hr h
    · rename_i own how
      dsimp only at h
      have ho' := hv own
      split at h
      · rename_i hh
        cases h
        exact .of_handed hk how (hh ▸ ho')
      · rename_i hh
        rw [Bool.not_eq_true] at hh
        obtain ⟨hf, hot⟩ := claimScan_frame h hne
        exact .of_visited how (hh ▸ ho') (ih hr h) hf hot

end

theorem claimScan_none (hnd : ids.Nodup) (h : claimScan visit ids scan = (scan', none))
    (hid : id ∈ ids) (hn : scan.dag.nodes[id]? = some node) :
    scan'.dag.nodes[id]? = some ((visit node).after node) ∧ (visit node).handed = false := by
  induction ids generalizing scan with
  | nil => cases hid
  | cons next rest ih =>
    obtain ⟨hne, hr⟩ := nodup_cons.mp hnd
    unfold claimScan at h
    split at h
    · rename_i hno
      rcases mem_cons.mp hid with rfl | hl
      · rw [hn] at hno
        cases hno
      · exact ih hr h hl hn
    · rename_i own how
      dsimp only at h
      split at h
      · cases (Prod.mk.inj h).2
      · rename_i hh
        by_cases hk : id = next
        · subst hk
          cases how.symm.trans hn
          rw [(claimScan_frame h hne).1, Scan.record_nodes how, if_pos rfl]
          exact ⟨rfl, by simpa using hh⟩
        · have hl : id ∈ rest := (mem_cons.mp hid).resolve_left hk
          exact ih hr h hl (by rw [Scan.record_nodes how, if_neg hk, hn])

/-- What a scan leaves alone: everything but the nodes. -/
structure SameHeader (dag dag' : DagRecord) : Prop where
  version : dag'.version = dag.version
  runId : dag'.runId = dag.runId
  maxParallel : dag'.maxParallel = dag.maxParallel

theorem Scan.record_header {taskId outcome} :
    SameHeader scan.dag (scan.record id taskId outcome).dag := by
  unfold Scan.record Scan.update
  cases outcome.update with
  | none =>
    rw [Scan.list_dag]
    exact ⟨rfl, rfl, rfl⟩
  | some node =>
    dsimp only
    rw [Scan.list_dag]
    exact ⟨rfl, rfl, rfl⟩

theorem Scan.record_changed {taskId outcome} (h : (scan.record id taskId outcome).changed = false) :
    (scan.record id taskId outcome).dag = scan.dag ∧ scan.changed = false := by
  unfold Scan.record Scan.update at h ⊢
  cases hu : outcome.update with
  | none =>
    rw [hu] at h
    exact ⟨Scan.list_dag .., (Scan.list_changed ..).symm.trans h⟩
  | some node =>
    rw [hu] at h
    cases h

theorem Scan.record_writes {taskId outcome dag} (hw : AllBeside dag scan.writes) :
    AllBeside dag (scan.record id taskId outcome).writes := by
  have hl : AllBeside dag (scan.list outcome.materialized taskId).writes := by
    unfold Scan.list
    split
    · intro write hm
      exact (mem_append.mp hm).elim (hw write) (appendRunTaskId_beside write)
    · exact hw
  unfold Scan.record Scan.update
  cases outcome.update <;> exact hl

/-- What a scan does besides visiting nodes: until it is over, it writes only the run. -/
structure ScanFrame (scan scan' : Scan) : Prop where
  header : SameHeader scan.dag scan'.dag
  unchanged : scan'.changed = false → scan'.dag = scan.dag ∧ scan.changed = false
  writes : ∀ dag, AllBeside dag scan.writes → AllBeside dag scan'.writes

theorem ScanFrame.trans {mid} (hf : ScanFrame scan mid) (hs : ScanFrame mid scan') :
    ScanFrame scan scan' where
  header := ⟨hs.header.version.trans hf.header.version, hs.header.runId.trans hf.header.runId,
    hs.header.maxParallel.trans hf.header.maxParallel⟩
  unchanged hc := by
    obtain ⟨hd, hm⟩ := hs.unchanged hc
    obtain ⟨hdm, hst⟩ := hf.unchanged hm
    exact ⟨hd.trans hdm, hst⟩
  writes dag hw := hs.writes dag (hf.writes dag hw)

theorem claimScan_framed (h : claimScan visit ids scan = (scan', claim)) :
    ScanFrame scan scan' := by
  induction ids generalizing scan with
  | nil =>
    rw [claimScan] at h
    cases h
    exact ⟨⟨rfl, rfl, rfl⟩, fun hc => ⟨rfl, hc⟩, fun _ hw => hw⟩
  | cons id rest ih =>
    unfold claimScan at h
    split at h
    · exact ih h
    · rename_i own how
      dsimp only at h
      have hr : ScanFrame scan (scan.record id own.taskId (visit own)) :=
        ⟨Scan.record_header, Scan.record_changed, fun _ => Scan.record_writes⟩
      split at h
      · cases h
        exact hr
      · exact hr.trans (ih h)

end

end MacWorker.Dag
