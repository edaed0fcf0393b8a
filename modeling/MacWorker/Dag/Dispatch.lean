import MacWorker.Dag.Calls

/-! # Dispatch respects the graph

A node is claimed for the first time only when every parent is submitted and its gate is
open. While the submission is not complete the node is handed out again, to its owner or
to whoever takes over from an owner that is gone, and that path looks at the gates only to
see that none has failed.

**`dispatch_respects_parents`** says what holds of every node that is handed out, and
`rehanded_while_parent_waits` that an open gate is not part of it. -/
namespace MacWorker.Dag
open Std (TreeMap)
open Fallible

/-- The parents of a node: those it lists, and the one it starts from. -/
def DagNode.HasParent (node : DagNode) (parent : String) : Prop :=
  parent ∈ node.dependsOn ∨ node.parentId = some parent

/-- Every parent's gate is open, and the parent's result is bound. -/
structure DagNode.Ready (node : DagNode) (gates : TreeMap String ParentGate) : Prop where
  gates : ∀ parent, node.HasParent parent → gates[parent]? = some .ready
  bound : ∀ parent, node.parentId = some parent → node.boundOid.isSome = true

/-- The claim of a waiting node, with its parents ready. -/
structure DagEvent.FirstClaim (event : DagEvent) (id : String) (world : DagWorld)
    (dag : DagRecord) (gates : TreeMap String ParentGate) (node : DagNode) : Prop where
  isClaim : ∃ caller nowMillis, event.op = .claim world caller nowMillis
  graph : event.before.dag = some dag
  computed : dagParentGates world dag = .ok gates
  found : dag.nodes[id]? = some node
  waiting : node.state = .waiting
  ready : node.Ready gates
  claimed : ∃ node', event.after.node id = some node' ∧ node'.state = .claimed

/-- Where a claimed node comes from: it was claimed when the run started, or in
the run, with its parents ready. -/
def Cleared (start : DagStore) (events : List DagEvent) (id : String) : Prop :=
  (∃ node, start.node id = some node ∧ node.state = .claimed) ∨
    ∃ event ∈ events, ∃ world dag gates node, event.FirstClaim id world dag gates node

def ParentsSubmitted (store : DagStore) (node : DagNode) : Prop :=
  ∀ dep ∈ node.dependsOn, ∃ parent, store.node dep = some parent ∧ parent.state = .submitted

def Rooted (store : DagStore) : Prop :=
  ∀ id node, store.node id = some node → node.state = .claimed → ParentsSubmitted store node

section
variable {runId : Uuid} {start store : DagStore} {events : List DagEvent} {event : DagEvent}
  {id : String} {node node' : DagNode} {world : DagWorld} {dag : DagRecord}
  {gates : TreeMap String ParentGate}

theorem ready_of_parentsReady (hn : node.Consistent) (h : parentsReady node gates = true) :
    node.Ready gates := by
  obtain ⟨hg, hb⟩ := parentsReady_iff.mp h
  refine ⟨fun parent hp => ?_, hb⟩
  rcases hp with hl | hf
  · exact hg parent hl
  · exact hg parent (hn.parentListed parent hf)

theorem parentsSubmitted_of_ready (hd : store.dag = some dag)
    (hg : dagParentGates world dag = .ok gates) (h : node.Ready gates) :
    ParentsSubmitted store node := by
  intro dep hde
  obtain ⟨parent, hp, hga⟩ := (dagParentGates_iff hg).mp (h.gates dep (.inl hde))
  exact ⟨parent, node_eq_some_iff.mpr ⟨dag, hd, hp⟩, nodeGate_ready hga⟩

theorem NodeChange.submitted_stays {op} (h : NodeChange op dag node node')
    (hs : node.state = .submitted) : node'.state = .submitted := by
  cases h with
  | kept => exact hs
  | scanned _ _ _ hst =>
    cases hst with
    | kept => exact hs
    | blocked hot _ => simp [hs] at hot
    | submitted _ => rfl
    | continued hot _ _ _ => exact hs
    | retaken hot _ _ _ => simp [hs] at hot
    | taken hot _ _ => simp [hs] at hot
  | bound _ _ => exact hs
  | submitted _ => rfl

theorem NodeChange.dependsOn_eq {op} (h : NodeChange op dag node node') :
    node'.dependsOn = node.dependsOn := by
  cases h with
  | kept => rfl
  | scanned _ _ _ hs => cases hs <;> rfl
  | bound _ _ => rfl
  | submitted _ => rfl

theorem DagCall.claimed_cases (h : DagCall runId event)
    (hn : event.after.node id = some node') (hs : node'.state = .claimed) :
    ∃ node, event.before.node id = some node ∧ node'.dependsOn = node.dependsOn ∧
      (node.state = .claimed ∨ ∃ world dag gates, event.FirstClaim id world dag gates node) := by
  obtain ⟨node, hol⟩ := h.before_of_after hn
  obtain ⟨dag, new, hd, hne, hch⟩ := h.change hol
  cases hne.symm.trans hn
  refine ⟨node, hol, hch.dependsOn_eq, ?_⟩
  cases hch with
  | kept => exact .inl hs
  | bound _ _ => exact .inl hs
  | submitted _ => cases hs
  | scanned hop hv hg hst =>
    cases hst with
    | kept => exact .inl hs
    | blocked _ _ => cases hs
    | submitted _ => cases hs
    | continued hc _ _ _ => exact .inl hc
    | retaken hc _ _ _ => exact .inl hc
    | taken hw _ hr =>
      obtain ⟨dag₁, hd₁, hf⟩ := node_eq_some_iff.mp hol
      cases hd.symm.trans hd₁
      exact .inr ⟨_, dag, _, ⟨_, _, hop⟩, hd, hg, hf, hw,
        ready_of_parentsReady (validate_ok hv hf) hr, _, hn, hs⟩

theorem DagCall.parentsSubmitted (h : DagCall runId event)
    (hp : ParentsSubmitted event.before node) : ParentsSubmitted event.after node := by
  intro dep hd
  obtain ⟨parent, hpa, hs⟩ := hp dep hd
  obtain ⟨dag, parent', _, ha, hc⟩ := h.change hpa
  exact ⟨parent', ha, hc.submitted_stays hs⟩

theorem DagCall.rooted (h : DagCall runId event) (hr : Rooted event.before) :
    Rooted event.after := by
  intro id node' hn hs
  obtain ⟨node, hol, hd, hc | ⟨world, dag, gates, hf⟩⟩ := h.claimed_cases hn hs
  · have hp := h.parentsSubmitted (hr id node hol hc)
    unfold ParentsSubmitted
    rwa [hd]
  · have hp := h.parentsSubmitted (parentsSubmitted_of_ready hf.graph hf.computed hf.ready)
    unfold ParentsSubmitted
    rwa [hd]

theorem DagRun.rooted (h : DagRun runId start events store) (hs : Rooted start) : Rooted store := by
  induction h with
  | start => exact hs
  | call _ hc ih => exact hc.rooted ih

theorem DagRun.cleared (h : DagRun runId start events store) (hn : store.node id = some node)
    (hs : node.state = .claimed) : Cleared start events id := by
  induction h generalizing node with
  | start => exact .inl ⟨node, hn, hs⟩
  | @call events event _ hc ih =>
    obtain ⟨old, hol, _, hcl | ⟨world, dag, gates, hf⟩⟩ := hc.claimed_cases hn hs
    · rcases ih hol hcl with hin | ⟨earlier, hm, hea⟩
      · exact .inl hin
      · exact .inr ⟨earlier, List.mem_append_left _ hm, hea⟩
    · exact .inr ⟨event, by simp, world, dag, gates, old, hf⟩

end

/-- What holds of a node when it is handed out of `dag`, where `gates` are the
gates the call computed. -/
structure Dispatched (start : DagStore) (events : List DagEvent) (dag : DagRecord)
    (gates : TreeMap String ParentGate) (id : String) (node : DagNode) : Prop where
  submitted : ∀ parent, node.HasParent parent →
    ∃ p, dag.nodes[parent]? = some p ∧ p.state = .submitted
  unfailed : ∀ parent, node.HasParent parent →
    gates[parent]? ≠ some .failed ∧ gates[parent]? ≠ some .integrationFailed
  bound : ∀ parent, node.parentId = some parent → node.boundOid.isSome = true
  first : node.state = .waiting → node.Ready gates
  /-- Any later one is for a node that was ready when it was first claimed. -/
  again : node.state ≠ .waiting → node.state = .claimed ∧ Cleared start events id

section
variable {runId : Uuid} {start store : DagStore} {events : List DagEvent} {world : DagWorld}
  {caller : ProcessIdentity} {nowMillis : Nat} {claim : DagClaim} {dag : DagRecord}
  {gates : TreeMap String ParentGate} {node : DagNode}

theorem bound_of_executionOid (h : node.executionOid.isSome = true) {parent}
    (hp : node.parentId = some parent) : node.boundOid.isSome = true := by
  unfold DagNode.executionOid at h
  unfold DagNode.parentId at hp
  cases hb : node.base with
  | frozen oid pin wip => simp [hb] at hp
  | «from» p => simpa [hb] using h

theorem handed_step
    (h : (claimNextEligibleDagNode world runId caller nowMillis store).1 = .ok (some claim)) :
    ∃ dag gates node, store.dag = some dag ∧ dag.validate = .ok () ∧
      dagParentGates world dag = .ok gates ∧ dag.nodes[claim.batchId]? = some node ∧
      NodeStep world gates caller nowMillis node claim.node true := by
  cases hd : store.dag with
  | none =>
    have hno : ((DagOp.claim world caller nowMillis).run runId store).1 ≠ .ok (some claim) :=
      (run_without_dag hd runId).2 claim
    exact absurd h hno
  | some dag =>
    obtain ⟨⟨e, he⟩, -⟩ | ⟨found, dag', ha, hv, -, gates, hg, hs, -⟩ :=
      claim_cases hd (Prod.ext h rfl)
    · cases he
    cases ha
    obtain ⟨node, hn⟩ := hs.found claim rfl
    obtain ⟨node', handed, _, hst, hc⟩ := hs.present _ node hn
    obtain ⟨rfl, rfl⟩ := hc claim rfl rfl
    exact ⟨dag, gates, node, rfl, hv, hg, hn, hst⟩

theorem unfailed_of_fine (hn : node.Consistent) (h : parentsFailed node gates = false) {parent}
    (hp : node.HasParent parent) :
    gates[parent]? ≠ some .failed ∧ gates[parent]? ≠ some .integrationFailed := by
  rcases hp with hl | hf
  · exact parentsFailed_eq_false_iff.mp h parent hl
  · exact parentsFailed_eq_false_iff.mp h parent (hn.parentListed parent hf)

theorem submitted_in_graph (hd : store.dag = some dag) (hn : node.Consistent)
    (h : ParentsSubmitted store node) {parent} (hpa : node.HasParent parent) :
    ∃ p, dag.nodes[parent]? = some p ∧ p.state = .submitted := by
  have hl : parent ∈ node.dependsOn := hpa.elim id (hn.parentListed parent)
  obtain ⟨p, hp, hs⟩ := h parent hl
  obtain ⟨dag₁, hd₁, hf⟩ := node_eq_some_iff.mp hp
  cases hd.symm.trans hd₁
  exact ⟨p, hf, hs⟩

/-- **Dispatch respects the graph.** In every run from a store whose claimed
nodes have submitted parents, each node handed out has submitted parents, none
of whose gates has failed, and its base is bound; a waiting node is handed out
only when it is ready, and a claimed one only if it was ready at its first
claim. -/
theorem dispatch_respects_parents (hstart : Rooted start) (hrun : DagRun runId start events store)
    (hclaim : (claimNextEligibleDagNode world runId caller nowMillis store).1 = .ok (some claim)) :
    ∃ dag gates node, store.dag = some dag ∧ dagParentGates world dag = .ok gates ∧
      dag.nodes[claim.batchId]? = some node ∧
      Dispatched start events dag gates claim.batchId node := by
  obtain ⟨dag, gates, node, hd, hv, hg, hn, hst⟩ := handed_step hclaim
  refine ⟨dag, gates, node, hd, hg, hn, ?_⟩
  have hc : node.Consistent := validate_ok hv hn
  have hsr : store.node claim.batchId = some node := node_eq_some_iff.mpr ⟨dag, hd, hn⟩
  -- A claim that is continued or taken over rests on what the run has kept.
  have ha : node.state = .claimed → parentsFailed node gates = false →
      node.executionOid.isSome = true → Dispatched start events dag gates claim.batchId node := by
    intro hs hf hoi
    have hp := hrun.rooted hstart _ node hsr hs
    exact {
      submitted := fun _ => submitted_in_graph hd hc hp
      unfailed := fun _ => unfailed_of_fine hc hf
      bound := fun _ => bound_of_executionOid hoi
      first := fun hw => by rw [hs] at hw; cases hw
      again := fun _ => ⟨hs, hrun.cleared hsr hs⟩ }
  generalize claim.node = after at hst
  cases hst with
  | continued hs hf _ hoi => exact ha hs hf hoi
  | retaken hs hf _ hoi => exact ha hs hf hoi
  | taken hs hf hr =>
    have hr := ready_of_parentsReady hc hr
    have hp := parentsSubmitted_of_ready hd hg hr
    exact {
      submitted := fun _ => submitted_in_graph hd hc hp
      unfailed := fun _ => unfailed_of_fine hc hf
      bound := hr.bound
      first := fun _ => hr
      again := fun hot => absurd hs hot }

end

theorem rooted_of_waiting {store dag} (hd : store.dag = some dag)
    (h : ∀ entry ∈ dag.nodes.toList, entry.2.state = .waiting) : Rooted store := by
  intro id node hn hs
  obtain ⟨dag₁, hd₁, hf⟩ := node_eq_some_iff.mp hn
  cases hd.symm.trans hd₁
  have hw := h (id, node) (TreeMap.mem_toList_iff_getElem?_eq_some.mpr hf)
  rw [hs] at hw
  cases hw

/-! ## A parent that moves on -/

def sampleOid : BaseOid := .sample

def DagFrozenSpec.sample : DagFrozenSpec where
  questions := none
  prompt := "port the parser"
  title := none
  agent := "codex"
  model := none
  effort := none
  source := "local"
  originUrl := none
  publish := []
  publishBranch := none
  closeOn := .done
  envProfile := none
  worker := none
  wip := false
  projectPath := "/project"
  projectId := "project"
  worktreeId := "worktree"
  timeoutMillis := 60000
  maxTurns := none
  maxBudgetUsdCents := none
  maxFollowups := 10
  permissions := "workspace"
  requires := []
  includeUntracked := []
  includeEmptyDirs := []
  allowSensitive := []
  cliIncludes := []
  branch := none

def DagNode.sample (id : String) (number : Uuid) (dependsOn : List String) : DagNode where
  batchId := id
  taskId := ⟨number⟩
  turnId := ⟨number⟩
  dependsOn := dependsOn
  base := .frozen sampleOid (dagPinRef 9 id) false
  frozen := .sample
  state := .waiting
  boundOid := none
  boundTurnId := none
  pinRef := none
  blockedBy := none
  claimedBy := none
  claimedAtMillis := none

def pairGraph : DagRecord where
  version := 1
  runId := 9
  maxParallel := 1
  name := none
  createdAtMillis := 0
  nodes := ((∅ : TreeMap String DagNode).insert "a" (.sample "a" 1 [])).insert "b"
    (.sample "b" 2 ["a"])

/-- A new batch of two tasks, of which `b` depends on `a`. -/
def pairStore : DagStore := ⟨some pairGraph, none, true⟩

/-- The surroundings once the work of `a` is integrated and imported, with its
task in the given state. -/
def integratedWorld (state : TaskState) : DagWorld where
  task := fun taskId =>
    if taskId = ⟨1⟩ then some
      { info := ⟨⟨1⟩, some 9, "project", "worktree"⟩
        status := ⟨state, some .done, some sampleOid, [⟨⟨1⟩, some .succeeded, some .done⟩]⟩
        runner := none, abandonCode := none, submissionIntentTurnId := none
        submissionRollbackTurnId := none, fetchedHead := some sampleOid
        autoContinueIntent := none }
    else none
  turnIds := fun _ => []
  verdict := fun _ => .live
  integration := some
    { retainsEvidence := fun _ => false
      readTask := fun _ =>
        .ok (true, some ⟨⟨.integrated, ⟨1⟩, none⟩, [], some ⟨sampleOid, none, true⟩⟩) }

def pairAfter (ops : List DagOp) : DagStore :=
  ops.foldl (fun store op => store.writeAll (op.run 9 store).2) pairStore

/-- `a` is claimed and submitted, and once it is integrated `b` is claimed. -/
def untilBothClaimed : List DagOp :=
  [.claim (integratedWorld .queued) ⟨5, 5⟩ 1, .submitted "a" ⟨1⟩,
    .claim (integratedWorld .open) ⟨5, 5⟩ 2]

/-- The first claim of `b` finds its parent ready. -/
theorem dispatch_respects_parents_pair :
    ∃ (events : List DagEvent) (claim : DagClaim) (dag : DagRecord)
      (gates : TreeMap String ParentGate) (node : DagNode),
      (pairAfter (untilBothClaimed.take 2)).dag = some dag ∧
      dagParentGates (integratedWorld .open) dag = .ok gates ∧
      dag.nodes[claim.batchId]? = some node ∧ claim.batchId = "b" ∧
      Dispatched pairStore events dag gates claim.batchId node := by
  have hr : Rooted pairStore := rooted_of_waiting rfl (by decide)
  obtain ⟨events, hru⟩ := (DagRun.start : DagRun 9 pairStore [] _).of_calls
    (untilBothClaimed.take 2)
  have hh : (handedOut (claimNextEligibleDagNode (integratedWorld .open) 9 ⟨5, 5⟩ 2
      (pairAfter (untilBothClaimed.take 2))).1).map (·.batchId) = some "b" := by decide
  obtain ⟨claim, hc, hid⟩ := Option.map_eq_some_iff.mp hh
  obtain ⟨dag, gates, node, hda, hg, hn, hd⟩ :=
    dispatch_respects_parents hr hru (handedOut_eq_some.mp hc)
  exact ⟨events, claim, dag, gates, node, hda, hg, hn, hid, hd⟩

/-- After its result was integrated the parent gets a follow-up, which closes
its gate; the child is handed out once more all the same. -/
theorem rehanded_while_parent_waits :
    ∃ events store claim dag gates, DagRun 9 pairStore events store ∧
      (claimNextEligibleDagNode (integratedWorld .active) 9 ⟨5, 5⟩ 3 store).1 = .ok (some claim) ∧
      store.dag = some dag ∧ dagParentGates (integratedWorld .active) dag = .ok gates ∧
      "a" ∈ claim.node.dependsOn ∧ gates["a"]? = some .waiting := by
  obtain ⟨events, hru⟩ := (DagRun.start : DagRun 9 pairStore [] _).of_calls untilBothClaimed
  have hh : (handedOut (claimNextEligibleDagNode (integratedWorld .active) 9 ⟨5, 5⟩ 3
      (pairAfter untilBothClaimed)).1).map (·.node.dependsOn) = some ["a"] := by decide
  have hg : ((pairAfter untilBothClaimed).dag.bind fun dag =>
      (dagParentGates (integratedWorld .active) dag).toOption.bind (·["a"]?)) = some .waiting := by
    decide
  obtain ⟨dag, hda, hg⟩ := Option.bind_eq_some_iff.mp hg
  obtain ⟨gates, hga, hg⟩ := Option.bind_eq_some_iff.mp hg
  obtain ⟨claim, hc, hd⟩ := Option.map_eq_some_iff.mp hh
  refine ⟨events, _, claim, dag, gates, hru, handedOut_eq_some.mp hc, hda, ?_,
    by simp [hd], hg⟩
  cases hr : dagParentGates (integratedWorld .active) dag with
  | error e =>
    rw [hr] at hga
    cases hga
  | ok found =>
    rw [hr] at hga
    exact congrArg Except.ok (Option.some.inj hga)

end MacWorker.Dag
