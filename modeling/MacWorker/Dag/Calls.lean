import MacWorker.Dag.Claim

/-! # Calls, crashes and runs

What a call can do to a stored graph, whether it returns or its process dies between two
writes. The graph is written at most once in a call, so a call leaves either the old graph
or the one it computed, and `NodeChange` lists what may have become of each node.

A run is a sequence of such calls, by any processes, each with its own view of the tasks
and processes around it. -/
namespace MacWorker.Dag
open List
open Std (TreeMap)
open Fallible

/-! ## Writes -/

section
variable {store : DagStore} {writes kept : List DagWrite} {dag dag' : DagRecord}

def OnlyGraph (writes : List DagWrite) (dag : DagRecord) : Prop :=
  ∀ record, .dag record ∈ writes → record = dag

theorem writeAll_dag (h : OnlyGraph writes dag) :
    (store.writeAll writes).dag = store.dag ∨ (store.writeAll writes).dag = some dag := by
  induction writes generalizing store with
  | nil => exact .inl rfl
  | cons write rest ih =>
    have hr : OnlyGraph rest dag := fun record hm => h record (mem_cons_of_mem write hm)
    show ((store.write write).writeAll rest).dag = store.dag ∨
      ((store.write write).writeAll rest).dag = some dag
    rcases @ih (store.write write) hr with hs | hn
    · cases write with
      | run record => exact .inl hs
      | pending entry => exact .inl hs
      | dag record =>
        right
        rw [hs, ← h record mem_cons_self]
        rfl
    · exact .inr hn

theorem writeAll_dag_of_none (h : ∀ record, .dag record ∉ writes) :
    (store.writeAll writes).dag = store.dag := by
  induction writes generalizing store with
  | nil => rfl
  | cons write rest ih =>
    show ((store.write write).writeAll rest).dag = store.dag
    rw [ih fun record hm => h record (mem_cons_of_mem write hm)]
    cases write with
    | run record => rfl
    | pending entry => rfl
    | dag record => exact absurd mem_cons_self (h record)

theorem writeAll_append (first second : List DagWrite) :
    store.writeAll (first ++ second) = (store.writeAll first).writeAll second :=
  foldl_append

theorem persistDag_ok (h : persistDag dag = .ok writes) :
    writes = [.dag dag, syncPendingDag dag] := by
  obtain ⟨_, hp⟩ := of_then h
  exact (pure_eq_ok.mp hp).symm

theorem AllBeside.no_dag {stored} (h : AllBeside stored writes) (record : DagRecord) :
    .dag record ∉ writes :=
  fun hm => by cases h _ hm

/-- What a call that finds `dag` writes, where the graph it computed comes last, with its entry. -/
inductive Wrote (dag : DagRecord) : DagRecord → List DagWrite → Prop
  | kept {writes : List DagWrite} (hw : AllBeside (some dag) writes) : Wrote dag dag writes
  | stored {writes : List DagWrite} (hw : AllBeside (some dag) writes) (dag' : DagRecord) :
      Wrote dag dag' (writes ++ [.dag dag', syncPendingDag dag'])

theorem Wrote.persisted (hw : AllBeside (some dag) kept) (h : persistDag dag' = .ok writes) :
    Wrote dag dag' (kept ++ writes) := by
  obtain rfl := persistDag_ok h
  exact .stored hw dag'

theorem Wrote.only (h : Wrote dag dag' writes) : OnlyGraph writes dag' := by
  intro record hm
  cases h with
  | kept hw => exact absurd hm (hw.no_dag record)
  | stored hw =>
    rcases mem_append.mp hm with hk | hn
    · exact absurd hk (hw.no_dag record)
    · simpa [syncPendingDag] using hn

theorem Wrote.dag_eq (h : Wrote dag dag' writes) (hd : store.dag = some dag) :
    (store.writeAll writes).dag = some dag' := by
  cases h with
  | kept hw => exact (writeAll_dag_of_none hw.no_dag).trans hd
  | stored hw =>
    rw [writeAll_append]
    rfl

end

/-! ## One call -/

inductive DagOp where
  | claim (world : DagWorld) (caller : ProcessIdentity) (nowMillis : Nat)
  | bind (batchId : String) (boundOid : BaseOid) (boundTurnId : TurnId) (pinRef : String)
  | submitted (batchId : String) (taskId : TaskId)

/-- The answer of a call, with the node it hands out, and its writes. -/
def DagOp.run (runId : Uuid) (store : DagStore) :
    DagOp → Except WorkerError (Option DagClaim) × List DagWrite
  | .claim world caller nowMillis => claimNextEligibleDagNode world runId caller nowMillis store
  | .bind batchId boundOid boundTurnId pinRef =>
    let result := publishDagBinding runId batchId boundOid boundTurnId pinRef store
    (result.1.map fun _ => none, result.2)
  | .submitted batchId taskId =>
    let result := markDagNodeSubmitted runId batchId taskId store
    (result.1.map fun _ => none, result.2)

/-- What a call can make of a node of `dag`. -/
inductive NodeChange (op : DagOp) (dag : DagRecord) (node : DagNode) : DagNode → Prop
  | kept : NodeChange op dag node node
  | scanned {world : DagWorld} {caller : ProcessIdentity} {nowMillis : Nat}
      {gates : TreeMap String ParentGate} {node' : DagNode} {handed : Bool}
      (hop : op = .claim world caller nowMillis) (hvalid : dag.validate = .ok ())
      (hgates : dagParentGates world dag = .ok gates)
      (hstep : NodeStep world gates caller nowMillis node node' handed) :
      NodeChange op dag node node'
  | bound {batchId : String} {oid : BaseOid} {turn : TurnId} {pin : String}
      (hop : op = .bind batchId oid turn pin) (canonical : String) :
      NodeChange op dag node
        { node with boundOid := some oid, boundTurnId := some turn, pinRef := some canonical }
  | submitted {batchId : String} (hop : op = .submitted batchId node.taskId) :
      NodeChange op dag node node.markSubmitted

/-- Every node of `dag` is a node of `dag'`, after a change that `op` can
make, and there are no others. -/
structure Moved (op : DagOp) (dag dag' : DagRecord) : Prop where
  absent : ∀ id : String, dag.nodes[id]? = none → dag'.nodes[id]? = none
  present : ∀ (id : String) (node : DagNode), dag.nodes[id]? = some node →
    ∃ node', dag'.nodes[id]? = some node' ∧ NodeChange op dag node node'

theorem Moved.refl (op : DagOp) (dag : DagRecord) : Moved op dag dag :=
  ⟨fun _ h => h, fun _ node hn => ⟨node, hn, .kept⟩⟩

theorem Moved.insert {op dag id node node'} (hn : dag.nodes[id]? = some node)
    (hc : NodeChange op dag node node') :
    Moved op dag { dag with nodes := dag.nodes.insert id node' } := by
  refine ⟨fun k hk => ?_, fun k old hol => ?_⟩
  · show (dag.nodes.insert id node')[k]? = none
    rw [TreeMap.getElem?_insert, if_neg ?_]
    · exact hk
    · intro heq
      rw [compare_eq_iff_eq.mp heq, hk] at hn
      cases hn
  · show ∃ next, (dag.nodes.insert id node')[k]? = some next ∧ _
    rw [TreeMap.getElem?_insert]
    by_cases hk : id = k
    · subst hk
      cases hn.symm.trans hol
      exact ⟨node', by simp, hc⟩
    · exact ⟨old, by simpa [hk] using hol, .kept⟩

theorem Moved.of_scanned {world caller nowMillis gates dag dag' claim} (hv : dag.validate = .ok ())
    (hg : dagParentGates world dag = .ok gates)
    (h : Scanned (NodeStep world gates caller nowMillis) dag dag' claim) :
    Moved (.claim world caller nowMillis) dag dag' := by
  refine ⟨h.absent, fun id node hn => ?_⟩
  obtain ⟨node', handed, hne, hs, _⟩ := h.present id node hn
  exact ⟨node', hne, .scanned rfl hv hg hs⟩

/-! ## The effect of a call -/

section
variable {store : DagStore} {runId : Uuid} {dag : DagRecord} {world : DagWorld}
  {caller : ProcessIdentity} {nowMillis : Nat} {claim : Option DagClaim} {writes : List DagWrite}
  {answer : Except WorkerError (Option DagClaim)}

theorem loadRunDag_ok {found} (h : store.loadRunDag runId = .ok found) :
    found = store.dag ∧ ∀ dag, store.dag = some dag → dag.validate = .ok () := by
  unfold DagStore.loadRunDag at h
  split at h
  · rename_i hn
    cases h
    exact ⟨hn.symm, by simp [hn]⟩
  · rename_i dag hs
    obtain ⟨hv, hr⟩ := of_then h
    obtain ⟨_, hp⟩ := of_then hr
    cases hp
    refine ⟨hs.symm, fun d hd => ?_⟩
    cases hs.symm.trans hd
    exact mapError_eq_ok.mp hv

theorem completeUnpublishedDagRun_beside {run found}
    (h : completeUnpublishedDagRun dag run = .ok (found, writes)) :
    AllBeside (some dag) writes := by
  have hs : (syncPendingDag dag).Beside (some dag) := .entry rfl
  unfold completeUnpublishedDagRun at h
  split at h
  · cases h
    simpa [AllBeside] using hs
  · obtain ⟨run, _, hp⟩ := of_bind h
    obtain ⟨rfl, rfl⟩ := Prod.mk.inj (pure_eq_ok.mp hp)
    simpa [AllBeside] using ⟨.run run, hs⟩

/-- What a call without a claim does: it visits every node. -/
structure Visited (world : DagWorld) (gates : TreeMap String ParentGate) (caller : ProcessIdentity)
    (nowMillis : Nat) (dag dag' : DagRecord) : Prop where
  absent : ∀ id : String, dag.nodes[id]? = none → dag'.nodes[id]? = none
  present : ∀ (id : String) (node : DagNode), dag.nodes[id]? = some node →
    dag'.nodes[id]? = some ((visitNode world gates caller nowMillis node).after node) ∧
      (visitNode world gates caller nowMillis node).handed = false

/-- The graph a scan ends with. -/
def Swept (world : DagWorld) (caller : ProcessIdentity) (nowMillis : Nat) (dag dag' : DagRecord)
    (claim : Option DagClaim) : Prop :=
  ∃ gates, dagParentGates world dag = .ok gates ∧
    Scanned (NodeStep world gates caller nowMillis) dag dag' claim ∧
    (claim = none → Visited world gates caller nowMillis dag dag')

theorem claimScan_swept {gates run first scan} (hg : dagParentGates world dag = .ok gates)
    (h : claimScan (visitNode world gates caller nowMillis) dag.nodes.keys
      ⟨dag, run, first, false⟩ =
      (scan, claim)) : Swept world caller nowMillis dag scan.dag claim := by
  have hsp := claimScan_spec (fun _ => .kept) (fun _ => visitNode_step) TreeMap.nodup_keys h
  refine ⟨gates, hg, hsp, fun hc => ⟨hsp.absent, fun id node hn => ?_⟩⟩
  have hk : id ∈ dag.nodes.keys := by
    rw [TreeMap.mem_keys, TreeMap.mem_iff_isSome_getElem?, hn]
    rfl
  exact claimScan_none TreeMap.nodup_keys (hc ▸ h) hk hn

theorem finishClaim_cases {scan} (hw : AllBeside (some dag) scan.writes)
    (hsa : scan.changed = false → scan.dag = dag) (h : finishClaim scan claim = (answer, writes)) :
    (∃ e, answer = .error e) ∧ Wrote dag dag writes ∨
      answer = .ok claim ∧ Wrote dag scan.dag writes := by
  unfold finishClaim at h
  split at h
  · split at h
    · rename_i e _
      cases h
      exact .inl ⟨⟨e, rfl⟩, .kept hw⟩
    · rename_i ws hp
      cases h
      exact .inr ⟨rfl, .persisted hw hp⟩
  · rename_i hu
    cases h
    rw [hsa (by simpa using hu)]
    exact .inr ⟨rfl, .kept hw⟩

theorem claimDag_cases {run} (h : claimDag world caller nowMillis dag run = (answer, writes)) :
    (∃ e, answer = .error e) ∧ Wrote dag dag writes ∨ ∃ claim dag', answer = .ok claim ∧
      Wrote dag dag' writes ∧ Swept world caller nowMillis dag dag' claim := by
  unfold claimDag at h
  split at h
  · rename_i e _
    cases h
    exact .inl ⟨⟨e, rfl⟩, .kept (by simp [AllBeside])⟩
  · rename_i run first hr
    have hf := completeUnpublishedDagRun_beside hr
    split at h
    · rename_i e _
      cases h
      exact .inl ⟨⟨e, rfl⟩, .kept hf⟩
    · rename_i gates hg
      dsimp only at h
      generalize hs : claimScan (visitNode world gates caller nowMillis) dag.nodes.keys
        ⟨dag, run, first, false⟩ = result at h
      obtain ⟨scan, claim⟩ := result
      have hfr := claimScan_framed hs
      rcases finishClaim_cases (hfr.writes _ hf) (fun hc => (hfr.unchanged hc).1) h with
        he | ⟨ha, hw⟩
      · exact .inl he
      · exact .inr ⟨claim, scan.dag, ha, hw, claimScan_swept hg hs⟩

theorem addressed_ok {batchId node} (h : store.addressed runId batchId = .ok (dag, node)) :
    store.dag = some dag ∧ dag.nodes[batchId]? = some node := by
  obtain ⟨found, hl, hr⟩ := of_bind h
  obtain ⟨rfl, _⟩ := loadRunDag_ok hl
  split at hr
  · cases hr
  · rename_i d hd
    split at hr
    · cases hr
    · rename_i n hn
      cases hr
      exact ⟨hd, hn⟩

/-- What a call leaves: at most one graph is written, and every node in it is
the old one after a change that the call can make. -/
def Effect (op : DagOp) (dag : DagRecord) (writes : List DagWrite) : Prop :=
  ∃ dag', Wrote dag dag' writes ∧ Moved op dag dag'

theorem Effect.unchanged {op} (hw : AllBeside (some dag) writes) : Effect op dag writes :=
  ⟨dag, .kept hw, .refl op dag⟩

theorem Effect.none {op} : Effect op dag [] := .unchanged (by simp [AllBeside])

theorem claim_cases (hd : store.dag = some dag)
    (h : claimNextEligibleDagNode world runId caller nowMillis store = (answer, writes)) :
    (∃ e, answer = .error e) ∧ Wrote dag dag writes ∨ ∃ claim dag', answer = .ok claim ∧
      dag.validate = .ok () ∧ Wrote dag dag' writes ∧
      Swept world caller nowMillis dag dag' claim := by
  unfold claimNextEligibleDagNode at h
  split at h
  · rename_i e _
    cases h
    exact .inl ⟨⟨e, rfl⟩, .kept (by simp [AllBeside])⟩
  · rename_i hl
    cases (loadRunDag_ok hl).1.trans hd
  · rename_i found hl
    obtain ⟨hf, hv⟩ := loadRunDag_ok hl
    obtain rfl := Option.some.inj (hf.trans hd)
    rcases claimDag_cases h with he | ⟨claim, dag', ha, hw, hs⟩
    · exact .inl he
    · exact .inr ⟨claim, dag', ha, hv _ hd, hw, hs⟩

theorem claim_effect (hd : store.dag = some dag)
    (h : claimNextEligibleDagNode world runId caller nowMillis store = (answer, writes)) :
    Effect (.claim world caller nowMillis) dag writes := by
  rcases claim_cases hd h with ⟨-, hw⟩ | ⟨claim, dag', -, hv, hw, gates, hg, hs, -⟩
  · exact ⟨dag, hw, .refl _ dag⟩
  · exact ⟨dag', hw, .of_scanned hv hg hs⟩

theorem bindNode_ok {op batchId node node' oid turn pin canonical}
    (hop : op = .bind batchId oid turn pin) (h : bindNode node oid turn canonical = .ok node') :
    NodeChange op dag node node' := by
  unfold bindNode at h
  split at h
  · cases h
    exact .bound hop canonical
  · obtain ⟨-, h⟩ := of_if h
    cases h
    exact .kept
  · cases h

theorem bind_effect {batchId oid turn pin} (hd : store.dag = some dag) :
    Effect (.bind batchId oid turn pin) dag
      (publishDagBinding runId batchId oid turn pin store).2 := by
  unfold publishDagBinding
  split
  · exact .none
  · rename_i ws hp
    obtain ⟨_, hr⟩ := of_then hp
    obtain ⟨⟨found, node⟩, had, hr⟩ := of_bind hr
    obtain ⟨node', hb, hpe⟩ := of_bind hr
    obtain ⟨hf, hn⟩ := addressed_ok had
    cases hd.symm.trans hf
    have hno : AllBeside (some dag) [] := by simp [AllBeside]
    exact ⟨_, .persisted hno hpe, .insert hn (bindNode_ok rfl hb)⟩

theorem submitted_effect {batchId taskId} (hd : store.dag = some dag) :
    Effect (.submitted batchId taskId) dag (markDagNodeSubmitted runId batchId taskId store).2 := by
  unfold markDagNodeSubmitted
  split
  · exact .none
  · rename_i found node had
    obtain ⟨hf, hn⟩ := addressed_ok had
    cases hd.symm.trans hf
    split
    · exact .none
    · rename_i ht
      split
      · exact .none
      · split
        · exact .unchanged appendRunTaskId_beside
        · rename_i ws hs
          unfold submitNode at hs
          split at hs
          · cases hs
            simpa using Effect.unchanged appendRunTaskId_beside
          · obtain rfl := not_not.mp ht
            exact ⟨_, .persisted appendRunTaskId_beside hs, .insert hn (.submitted rfl)⟩

theorem run_effect (op : DagOp) (runId : Uuid) (hd : store.dag = some dag) :
    Effect op dag (op.run runId store).2 := by
  cases op with
  | claim world caller nowMillis => exact claim_effect hd rfl
  | bind batchId oid turn pin => exact bind_effect hd
  | submitted batchId taskId => exact submitted_effect hd

theorem run_without_dag {op : DagOp} (hd : store.dag = none) (runId : Uuid) :
    (op.run runId store).2 = [] ∧ ∀ c, (op.run runId store).1 ≠ .ok (some c) := by
  have hl : store.loadRunDag runId = .ok none := by simp [DagStore.loadRunDag, hd]
  have hm : ∀ batchId, store.addressed runId batchId =
      .error (.invalidState "DAG record is missing") := by
    intro batchId
    simp [DagStore.addressed, hl]
  cases op with
  | claim world caller nowMillis => simp [DagOp.run, claimNextEligibleDagNode, hl]
  | bind batchId oid turn pin =>
    have hf : ∃ e, publishBinding runId batchId oid turn pin store = .error e := by
      unfold publishBinding ensure
      split <;> simp [hm]
    obtain ⟨e, he⟩ := hf
    simp [DagOp.run, publishDagBinding, he, Except.map]
  | submitted batchId taskId =>
    simp [DagOp.run, markDagNodeSubmitted, hm, Except.map]

end

/-! ## Runs -/

structure DagEvent where
  op : DagOp
  before : DagStore
  handed : Option DagClaim
  after : DagStore

def handedOut : Except WorkerError (Option DagClaim) → Option DagClaim
  | .ok claim => claim
  | .error _ => none

theorem handedOut_eq_some {answer claim} :
    handedOut answer = some claim ↔ answer = .ok (some claim) := by
  cases answer <;> simp [handedOut]

/-- A call returns, or its process dies after some of its writes and nothing
is handed out. -/
inductive DagCall (runId : Uuid) : DagEvent → Prop
  | returned (op : DagOp) (store : DagStore) :
      DagCall runId
        ⟨op, store, handedOut (op.run runId store).1, store.writeAll (op.run runId store).2⟩
  | crashed (op : DagOp) (store : DagStore) {kept : List DagWrite}
      (hkept : kept <+: (op.run runId store).2) :
      DagCall runId ⟨op, store, none, store.writeAll kept⟩

/-- Calls one after the other; a restarted process just makes further calls. -/
inductive DagRun (runId : Uuid) (start : DagStore) : List DagEvent → DagStore → Prop
  | start : DagRun runId start [] start
  | call {events : List DagEvent} {event : DagEvent} (hrun : DagRun runId start events event.before)
      (hcall : DagCall runId event) : DagRun runId start (events ++ [event]) event.after

section
variable {runId : Uuid} {start store : DagStore} {events : List DagEvent} {event : DagEvent}
  {id : String} {node : DagNode}

/-- However much of a call's writing is done, the graph is the old one or the
one the call computed. -/
theorem writeAll_moved {op dag kept} (hd : store.dag = some dag)
    (hk : kept <+: (op.run runId store).2) :
    ∃ dag', (store.writeAll kept).dag = some dag' ∧ Moved op dag dag' := by
  obtain ⟨dag', hw, hm⟩ := run_effect op runId hd
  have hon : OnlyGraph kept dag' := fun record hr => hw.only record (hk.subset hr)
  have hg : (store.writeAll kept).dag = store.dag ∨ (store.writeAll kept).dag = some dag' :=
    writeAll_dag hon
  rcases hg with hs | hn
  · exact ⟨dag, hs.trans hd, .refl op dag⟩
  · exact ⟨dag', hn, hm⟩

theorem writeAll_without_dag {op : DagOp} {kept : List DagWrite} (hd : store.dag = none)
    (hk : kept <+: (op.run runId store).2) : (store.writeAll kept).dag = none := by
  rw [(run_without_dag hd runId).1] at hk
  obtain rfl := eq_nil_of_prefix_nil hk
  exact hd

theorem DagCall.moved (h : DagCall runId event) {dag} (hd : event.before.dag = some dag) :
    ∃ dag', event.after.dag = some dag' ∧ Moved event.op dag dag' := by
  cases h with
  | returned op store => exact writeAll_moved hd (prefix_refl _)
  | crashed op store hk => exact writeAll_moved hd hk

theorem DagCall.without_dag (h : DagCall runId event) (hd : event.before.dag = none) :
    event.after.dag = none := by
  cases h with
  | returned op store => exact writeAll_without_dag hd (prefix_refl _)
  | crashed op store hk => exact writeAll_without_dag hd hk

theorem node_eq_some_iff :
    store.node id = some node ↔ ∃ dag, store.dag = some dag ∧ dag.nodes[id]? = some node :=
  Option.bind_eq_some_iff

theorem DagCall.change (h : DagCall runId event) (hn : event.before.node id = some node) :
    ∃ dag node', event.before.dag = some dag ∧ event.after.node id = some node' ∧
      NodeChange event.op dag node node' := by
  obtain ⟨dag, hd, hol⟩ := node_eq_some_iff.mp hn
  obtain ⟨dag', hd', hm⟩ := h.moved hd
  obtain ⟨node', hne, hc⟩ := hm.present id node hol
  exact ⟨dag, node', hd, node_eq_some_iff.mpr ⟨dag', hd', hne⟩, hc⟩

theorem DagCall.before_of_after (h : DagCall runId event) {node'}
    (hn : event.after.node id = some node') : ∃ node, event.before.node id = some node := by
  obtain ⟨dag', hd', hne⟩ := node_eq_some_iff.mp hn
  cases hd : event.before.dag with
  | none =>
    rw [h.without_dag hd] at hd'
    cases hd'
  | some dag =>
    obtain ⟨moved, hm', hm⟩ := h.moved hd
    cases hm'.symm.trans hd'
    cases hol : dag.nodes[id]? with
    | none =>
      rw [hm.absent id hol] at hne
      cases hne
    | some node => exact ⟨node, node_eq_some_iff.mpr ⟨dag, hd, hol⟩⟩

theorem DagRun.of_calls (hr : DagRun runId start events store) (ops : List DagOp) :
    ∃ events', DagRun runId start events'
      (ops.foldl (fun store op => store.writeAll (op.run runId store).2) store) := by
  induction ops generalizing events store with
  | nil => exact ⟨events, hr⟩
  | cons op rest ih => exact ih (.call hr (.returned op store))

end

end MacWorker.Dag
