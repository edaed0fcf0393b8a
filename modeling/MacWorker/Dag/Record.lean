import MacWorker.Task
import MacWorker.Dag.Graph

/-! # Stored batch graphs

A dependent batch is frozen into a `DagRecord` before its first task is
submitted: one node for each task, with the ids the task and its first turn
will have, the frozen submission, and the node's progress. A record is checked
whenever it is read or written, and a call that would store an invalid one
fails. -/
namespace MacWorker.Dag
open List
open Std (TreeMap)
open Fallible

inductive DagNodeState where
  | waiting
  | claimed
  | submitted
  | blocked
  deriving DecidableEq

inductive DagBase where
  | frozen (oid : BaseOid) (pinRef : String) (wip : Bool)
  | «from» (parent : String)
  deriving DecidableEq

inductive QuestionsPolicy where
  | decide
  | ask
  deriving DecidableEq

inductive ClosePolicy where
  | done
  | never
  deriving DecidableEq

/-- The resolved submission of a node. It is never read again from the batch
file or the project. -/
structure DagFrozenSpec where
  questions : Option QuestionsPolicy
  prompt : String
  title : Option String
  agent : String
  (model effort : Option String)
  source : String
  originUrl : Option String
  publish : List String
  publishBranch : Option String
  closeOn : ClosePolicy
  (envProfile worker : Option String)
  wip : Bool
  (projectPath projectId worktreeId : String)
  timeoutMillis : Nat
  (maxTurns maxBudgetUsdCents : Option Nat)
  maxFollowups : Nat
  permissions : String
  (requires includeUntracked includeEmptyDirs allowSensitive cliIncludes : List String)
  branch : Option String
  deriving DecidableEq

structure DagNode where
  batchId : String
  taskId : TaskId
  turnId : TurnId
  dependsOn : List String
  base : DagBase
  frozen : DagFrozenSpec
  state : DagNodeState
  boundOid : Option BaseOid
  boundTurnId : Option TurnId
  (pinRef blockedBy : Option String)
  claimedBy : Option ProcessIdentity
  claimedAtMillis : Option Nat
  deriving DecidableEq

structure DagRecord where
  version : Nat
  runId : Uuid
  maxParallel : Nat
  name : Option String
  createdAtMillis : Nat
  nodes : TreeMap String DagNode

def configInvalid (message : String) : WorkerError := .task "TASK_CONFIG_INVALID" message

/-! ## The frozen submission -/

inductive PermissionPolicy where
  | workspace
  | unattended

def DagFrozenSpec.permissionPolicy (spec : DagFrozenSpec) : Except WorkerError PermissionPolicy :=
  match spec.permissions with
  | "workspace" => .ok .workspace
  | "unattended" => .ok .unattended
  | _ => .error (configInvalid "frozen DAG permissions must be workspace or unattended")

structure TurnLimits where
  timeoutMillis : Nat
  (maxTurns maxBudgetUsdCents : Option Nat)

def TurnLimits.largestTimeoutMillis : Nat := 24 * 60 * 60 * 1000

def TurnLimits.largestBudgetUsdCents : Nat := 100000

def TurnLimits.validate (limits : TurnLimits) : Except String Unit := do
  ensure (limits.timeoutMillis ≠ 0) "timeout must be greater than zero"
  ensure (limits.timeoutMillis ≤ largestTimeoutMillis) "timeout must not exceed 24 hours"
  ensure (limits.maxTurns ≠ some 0) "max turns must be greater than zero"
  ensure (∀ budget ∈ limits.maxBudgetUsdCents, budget ≤ largestBudgetUsdCents)
    "budget must not exceed 100000 cents"

structure TaskLimits where
  turn : TurnLimits
  maxFollowups : Nat

/-- The limits of the turn are checked twice, once on their own and once as
part of the task's. -/
def DagFrozenSpec.limits (spec : DagFrozenSpec) : Except WorkerError TaskLimits := do
  let turn : TurnLimits := ⟨spec.timeoutMillis, spec.maxTurns, spec.maxBudgetUsdCents⟩
  turn.validate.mapError configInvalid
  turn.validate.mapError configInvalid
  ensure (spec.maxFollowups ≤ 100) (configInvalid "max_followups must be at most 100")
  pure ⟨turn, spec.maxFollowups⟩

/-! ## Nodes -/

/-- The ref that keeps a node's base object alive. -/
def dagPinRef (runId : Uuid) (batchId : String) : String :=
  "refs/mac-worker/dag/" ++ simple runId ++ "/" ++ batchId

namespace DagNode

variable (node : DagNode)

/-- The object a node starts from, once it is known. -/
def executionOid : Option BaseOid :=
  match node.base with
  | .frozen oid _ _ => some oid
  | .from _ => node.boundOid

def parentId : Option String :=
  match node.base with
  | .frozen .. => none
  | .from parent => some parent

def takeClaim (caller : ProcessIdentity) (nowMillis : Nat) : DagNode :=
  { node with
    state := .claimed, claimedBy := some caller, claimedAtMillis := some nowMillis
    blockedBy := none }

def markSubmitted : DagNode :=
  { node with state := .submitted, claimedBy := none, claimedAtMillis := none, blockedBy := none }

def markBlocked (code : String) : DagNode :=
  { node with
    state := .blocked, blockedBy := some code, claimedBy := none, claimedAtMillis := none }

end DagNode

/-! ## Validation -/

def validateBinding (node : DagNode) (canonical : String) : Except WorkerError Unit :=
  match node.boundOid, node.boundTurnId, node.pinRef with
  | none, none, none => .ok ()
  | some _, some _, some pin =>
    ensure (pin = canonical)
      (configInvalid "from: binding must store oid, turn, and canonical pin together")
  | _, _, _ =>
    .error (configInvalid "from: binding must store oid, turn, and canonical pin together")

def DagRecord.validateBase (record : DagRecord) (node : DagNode) (canonical : String) :
    Except WorkerError Unit :=
  match node.base with
  | .frozen _ pinRef _ =>
    ensure (pinRef = canonical)
      (configInvalid "frozen DAG pin_ref must be the canonical TransferRepo pin")
  | .from parent => do
    ensure (parent ∈ node.dependsOn)
      (configInvalid ("from:" ++ parent ++ " must be a depends_on edge"))
    ensure (parent ∈ record.nodes) (configInvalid ("from:" ++ parent ++ " parent is missing"))
    validateBinding node canonical

def validateProgress (node : DagNode) : Except WorkerError Unit :=
  match node.state with
  | .blocked => do
    ensure (node.blockedBy ≠ none) (configInvalid "blocked DAG node must name blocked_by")
    ensure (node.claimedBy = none ∧ node.claimedAtMillis = none)
      (configInvalid "blocked DAG node must not retain a claim owner")
  | .claimed =>
    ensure (node.claimedBy ≠ none ∧ node.claimedAtMillis ≠ none)
      (configInvalid "claimed DAG node must record claimed_by and claimed_at_millis")
  | .waiting | .submitted =>
    ensure (node.claimedBy = none ∧ node.claimedAtMillis = none)
      (configInvalid "waiting or submitted DAG node must not retain a claim owner")

/-- The checks on one node, given the nodes with smaller keys. -/
def DagRecord.validateNode (record : DagRecord) (passed : List DagNode) (id : String)
    (node : DagNode) : Except WorkerError Unit := do
  ensure (id = node.batchId) (configInvalid "DAG node key must match batch_id")
  (validateGraphId node.batchId).mapError configInvalid
  ensure (node.taskId ∉ passed.map (·.taskId)) (configInvalid "DAG task IDs must be unique")
  ensure (node.turnId ∉ passed.map (·.turnId)) (configInvalid "DAG turn IDs must be unique")
  let _ ← node.frozen.permissionPolicy
  let _ ← node.frozen.limits
  let canonical := dagPinRef record.runId node.batchId
  record.validateBase node canonical
  ensure (∀ pin ∈ node.pinRef, pin = canonical)
    (configInvalid "DAG node pin_ref must be the canonical TransferRepo pin")
  validateProgress node

def DagRecord.validateNodes (record : DagRecord) :
    List DagNode → List (String × DagNode) → Except WorkerError Unit
  | _, [] => .ok ()
  | passed, (id, node) :: rest => do
    record.validateNode passed id node
    record.validateNodes (passed ++ [node]) rest

def DagRecord.validate (record : DagRecord) : Except WorkerError Unit := do
  ensure (record.version = 1) (configInvalid "DAG record version must be 1")
  ensure (record.maxParallel ≠ 0) (configInvalid "DAG max_parallel must be greater than zero")
  record.validateNodes [] record.nodes.toList

/-- What the dispatch of a batch relies on in each node of a stored record. -/
structure DagNode.Consistent (node : DagNode) : Prop where
  parentListed : ∀ parent, node.parentId = some parent → parent ∈ node.dependsOn
  owned : node.state = .claimed → ∃ owner, node.claimedBy = some owner

variable {record : DagRecord}

theorem validateBase_ok {node canonical u} (h : record.validateBase node canonical = .ok u) {parent}
    (hp : node.parentId = some parent) : parent ∈ node.dependsOn := by
  unfold DagRecord.validateBase at h
  unfold DagNode.parentId at hp
  split at h
  · rename_i hb
    simp [hb] at hp
  · rename_i p hb
    obtain ⟨hl, _⟩ := of_then h
    rw [hb] at hp
    cases hp
    exact ensure_eq_ok.mp hl

theorem validateProgress_ok {node u} (h : validateProgress node = .ok u)
    (hs : node.state = .claimed) : ∃ owner, node.claimedBy = some owner := by
  unfold validateProgress at h
  rw [hs] at h
  exact Option.ne_none_iff_exists'.mp (ensure_eq_ok.mp h).1

theorem validateNode_ok {passed id node u} (h : record.validateNode passed id node = .ok u) :
    node.Consistent ∧ validateProgress node = .ok () := by
  unfold DagRecord.validateNode at h
  obtain ⟨-, h⟩ := of_then h
  obtain ⟨-, h⟩ := of_then h
  obtain ⟨-, h⟩ := of_then h
  obtain ⟨-, h⟩ := of_then h
  obtain ⟨_, -, h⟩ := of_bind h
  obtain ⟨_, -, h⟩ := of_bind h
  obtain ⟨hb, h⟩ := of_then h
  obtain ⟨-, hpr⟩ := of_then h
  exact ⟨⟨fun parent hp => validateBase_ok hb hp, validateProgress_ok hpr⟩, hpr⟩

/-! ## Validation without the order of the nodes -/

section
variable {record record' : DagRecord} {passed : List DagNode} {id : String} {node node' : DagNode}
  {u : Unit}

/-- Only the two uniqueness checks look at other nodes. -/
theorem validateNode_iff :
    record.validateNode passed id node = .ok u ↔ record.validateNode [] id node = .ok () ∧
      node.taskId ∉ passed.map (·.taskId) ∧ node.turnId ∉ passed.map (·.turnId) := by
  unfold DagRecord.validateNode
  simp only [then_eq_ok, ensure_eq_ok, map_nil, not_mem_nil, not_false_eq_true, true_and]
  constructor
  · rintro ⟨hk, hid, ht, htu, hr⟩
    exact ⟨⟨hk, hid, hr⟩, ht, htu⟩
  · rintro ⟨⟨hk, hid, hr⟩, ht, htu⟩
    exact ⟨hk, hid, ht, htu, hr⟩

/-- Nodes with different keys have different tasks and turns. -/
def Distinct (first second : String × DagNode) : Prop :=
  first.2.taskId ≠ second.2.taskId ∧ first.2.turnId ≠ second.2.turnId

theorem validateNodes_iff {entries} : record.validateNodes passed entries = .ok u ↔
      (∀ entry ∈ entries, record.validateNode passed entry.1 entry.2 = .ok ()) ∧
        entries.Pairwise Distinct := by
  induction entries generalizing passed with
  | nil => simp [DagRecord.validateNodes]
  | cons entry rest ih =>
    have hs : record.validateNodes passed (entry :: rest) = .ok u ↔
        record.validateNode passed entry.1 entry.2 = .ok () ∧
          record.validateNodes (passed ++ [entry.2]) rest = .ok u := then_eq_ok
    rw [hs, ih, forall_mem_cons, pairwise_cons]
    constructor
    · rintro ⟨hh, hr, hp⟩
      refine ⟨⟨hh, fun other hot => ?_⟩, fun other hot => ?_, hp⟩
      · obtain ⟨how, ht, htu⟩ := validateNode_iff.mp (hr other hot)
        simp only [map_append, mem_append, not_or] at ht htu
        exact validateNode_iff.mpr ⟨how, ht.1, htu.1⟩
      · obtain ⟨-, ht, htu⟩ := validateNode_iff.mp (hr other hot)
        simp only [map_append, mem_append, not_or, map_cons, map_nil, mem_singleton] at ht htu
        exact ⟨Ne.symm ht.2, Ne.symm htu.2⟩
    · rintro ⟨⟨hh, hr⟩, hd, hp⟩
      refine ⟨hh, fun other hot => ?_, hp⟩
      obtain ⟨how, ht, htu⟩ := validateNode_iff.mp (hr other hot)
      obtain ⟨ht', htu'⟩ := hd other hot
      refine validateNode_iff.mpr ⟨how, ?_, ?_⟩
      · simp [ht, Ne.symm ht']
      · simp [htu, Ne.symm htu']

/-- **What a stored record is checked for.** -/
theorem validate_iff : record.validate = .ok u ↔ record.version = 1 ∧ record.maxParallel ≠ 0 ∧
      (∀ (id : String) (node : DagNode), record.nodes[id]? = some node →
        record.validateNode [] id node = .ok ()) ∧
      ∀ (id id' : String) (node node' : DagNode), record.nodes[id]? = some node →
        record.nodes[id']? = some node' → id ≠ id' → Distinct (id, node) (id', node') := by
  have hs : Std.Symm Distinct := ⟨fun a b h => ⟨h.1.symm, h.2.symm⟩⟩
  have hpa : record.nodes.toList.Pairwise Distinct ↔
      ∀ a ∈ record.nodes.toList, ∀ b ∈ record.nodes.toList, a.1 ≠ b.1 → Distinct a b := by
    have hk : record.nodes.toList.Pairwise fun a b => a.1 ≠ b.1 := by
      have hnd := TreeMap.nodup_keys (t := record.nodes)
      rwa [← TreeMap.map_fst_toList_eq_keys, List.Nodup, pairwise_map] at hnd
    constructor
    · intro h a ha b hb hne
      exact h.forall ha hb fun he => hne (congrArg Prod.fst he)
    · intro h
      exact hk.imp_of_mem fun ha hb hne => h _ ha _ hb hne
  unfold DagRecord.validate
  simp only [then_eq_ok, ensure_eq_ok, validateNodes_iff, hpa, Prod.forall,
    TreeMap.mem_toList_iff_getElem?_eq_some]
  constructor
  · rintro ⟨hv, hp, hno, hd⟩
    exact ⟨hv, hp, hno, fun id id' node node' hn hn' =>
      hd id node hn id' node' hn'⟩
  · rintro ⟨hv, hp, hno, hd⟩
    exact ⟨hv, hp, hno, fun id node hn id' node' hn' =>
      hd id id' node node' hn hn'⟩

theorem validate_ok (h : record.validate = .ok u) (hn : record.nodes[id]? = some node) :
    node.Consistent :=
  (validateNode_ok ((validate_iff.mp h).2.2.1 id node hn)).1

/-- What validation reads of a node beside its progress. -/
structure SameSpec (node node' : DagNode) : Prop where
  batchId : node'.batchId = node.batchId
  taskId : node'.taskId = node.taskId
  turnId : node'.turnId = node.turnId
  dependsOn : node'.dependsOn = node.dependsOn
  base : node'.base = node.base
  frozen : node'.frozen = node.frozen
  boundOid : node'.boundOid = node.boundOid
  boundTurnId : node'.boundTurnId = node.boundTurnId
  pinRef : node'.pinRef = node.pinRef

theorem validateNode_congr (hr : record'.runId = record.runId)
    (hk : ∀ id : String, id ∈ record.nodes → id ∈ record'.nodes) (hs : SameSpec node node')
    (hp : validateProgress node' = .ok ())
    (h : record.validateNode [] id node = .ok ()) : record'.validateNode [] id node' = .ok () := by
  have hb : ∀ canonical, record.validateBase node canonical = .ok () →
      record'.validateBase node' canonical = .ok () := by
    intro canonical
    unfold DagRecord.validateBase validateBinding
    rw [hs.base, hs.dependsOn, hs.boundOid, hs.boundTurnId, hs.pinRef]
    split
    · exact fun h => h
    · simp only [then_eq_ok, ensure_eq_ok]
      rintro ⟨hl, hpa, hbi⟩
      exact ⟨hl, hk _ hpa, hbi⟩
  unfold DagRecord.validateNode at h ⊢
  rw [hr, hs.batchId, hs.taskId, hs.turnId, hs.frozen, hs.pinRef]
  simp only [then_eq_ok] at h ⊢
  obtain ⟨hke, hid, ht, htu, h⟩ := h
  obtain ⟨policy, hpo, h⟩ := of_bind h
  obtain ⟨limits, hli, h⟩ := of_bind h
  obtain ⟨hol, h⟩ := of_then h
  obtain ⟨hpi, -⟩ := of_then h
  refine ⟨hke, hid, ht, htu, bind_eq_ok.mpr ⟨policy, hpo, ?_⟩⟩
  refine bind_eq_ok.mpr ⟨limits, hli, then_eq_ok.mpr ⟨hb _ hol, ?_⟩⟩
  exact then_eq_ok.mpr ⟨hpi, hp⟩

end

def dagRunIsQuiescent (dag : DagRecord) : Bool :=
  dag.nodes.toList.all fun entry => entry.2.state == .submitted || entry.2.state == .blocked

end MacWorker.Dag
