import MacWorker.Dag.Dispatch
import MacWorker.Lib.Reach

/-! # A graph settles

A node is settled once it is submitted or blocked. When the gates of all submitted nodes
are decided, the results that ready nodes start from are bound, and no claim is held by a
process that may still run, a claim always finds something to do: some unsettled node has
only settled parents, and the scan hands it out, submits it or blocks it.

The gates are computed once for each call, so a failure moves down one level of the graph
in each. **`claims_settle`** bounds the number of calls and says which nodes end up
blocked. `block_outlives_failure` shows that a block stays when the failed parent
recovers. -/
namespace MacWorker.Dag
open List
open Std (TreeMap)
open Fallible Relation

def DagNode.settled (node : DagNode) : Bool := node.state == .submitted || node.state == .blocked

def DagRecord.settled (dag : DagRecord) : Finset String :=
  ((dag.nodes.toList.filter fun entry => entry.2.settled).map Prod.fst).toFinset

def DagRecord.DependsOn (dag : DagRecord) (id dep : String) : Prop :=
  ∃ node, dag.nodes[id]? = some node ∧ dep ∈ node.dependsOn

/-- Every edge leads to a node, and no path leads back. -/
structure DagRecord.Acyclic (dag : DagRecord) : Prop where
  closed : ∀ id dep, dag.DependsOn id dep → dep ∈ dag.nodes
  acyclic : ∀ id, ¬ TransGen dag.DependsOn id id

def FailedGate (gates : TreeMap String ParentGate) (id : String) : Prop :=
  gates[id]? = some .failed ∨ gates[id]? = some .integrationFailed

/-- Nothing outside the graph keeps it from moving. -/
structure Decided (world : DagWorld) (dag : DagRecord) (gates : TreeMap String ParentGate) :
    Prop where
  computed : dagParentGates world dag = .ok gates
  submitted : ∀ (id : String) (node : DagNode), dag.nodes[id]? = some node →
    node.state = .submitted → gates[id]? = some .ready ∨ FailedGate gates id
  bound : ∀ (id : String) (node : DagNode), dag.nodes[id]? = some node → node.settled = false →
    (∀ dep ∈ node.dependsOn, gates[dep]? = some .ready) →
    ∀ parent, node.parentId = some parent → node.boundOid.isSome = true
  exited : ∀ (id : String) (node : DagNode) (owner : ProcessIdentity), dag.nodes[id]? = some node →
    node.state = .claimed → node.claimedBy = some owner → world.verdict owner = .exited

/-! ## Settled nodes -/

section
variable {dag : DagRecord} {node : DagNode} {id : String}

theorem settled_iff : node.settled = true ↔ node.state = .submitted ∨ node.state = .blocked := by
  simp [DagNode.settled]

theorem settled_eq_false :
    node.settled = false ↔ node.state = .waiting ∨ node.state = .claimed := by
  unfold DagNode.settled
  cases node.state <;> simp

theorem mem_settled :
    id ∈ dag.settled ↔ ∃ node, dag.nodes[id]? = some node ∧ node.settled = true := by
  simp [DagRecord.settled, TreeMap.mem_toList_iff_getElem?_eq_some]

theorem quiescent_iff : dagRunIsQuiescent dag = true ↔
    ∀ (id : String) (node : DagNode), dag.nodes[id]? = some node → node.settled = true := by
  show (dag.nodes.toList.all fun entry => entry.2.settled) = true ↔ _
  simp [TreeMap.mem_toList_iff_getElem?_eq_some]

theorem settled_subset_keys : dag.settled ⊆ dag.nodes.keys.toFinset := by
  intro id hid
  obtain ⟨node, hn, -⟩ := mem_settled.mp hid
  rw [mem_toFinset, TreeMap.mem_keys, TreeMap.mem_iff_isSome_getElem?, hn]
  rfl

theorem card_keys : dag.nodes.keys.toFinset.card = dag.nodes.size := by
  rw [toFinset_card_of_nodup TreeMap.nodup_keys, TreeMap.length_keys]

theorem quiescent_of_card (h : dag.nodes.size ≤ dag.settled.card) :
    dagRunIsQuiescent dag = true := by
  have ha : dag.settled = dag.nodes.keys.toFinset :=
    Finset.eq_of_subset_of_card_le settled_subset_keys (by rw [card_keys]; exact h)
  refine quiescent_iff.mpr fun id node hn => ?_
  have hk : id ∈ dag.nodes.keys.toFinset := by
    rw [mem_toFinset, TreeMap.mem_keys, TreeMap.mem_iff_isSome_getElem?, hn]
    rfl
  rw [← ha] at hk
  obtain ⟨found, hf, hs⟩ := mem_settled.mp hk
  cases hn.symm.trans hf
  exact hs

theorem exists_frontier (ha : dag.Acyclic) (h : dagRunIsQuiescent dag = false) :
    ∃ (id : String) (node : DagNode), dag.nodes[id]? = some node ∧ node.settled = false ∧
      ∀ dep ∈ node.dependsOn, ∃ parent : DagNode, dag.nodes[dep]? = some parent ∧
        parent.settled = true := by
  have hop : ((dag.nodes.keys.toFinset) \ dag.settled).Nonempty := by
    by_contra hnn
    rw [Finset.not_nonempty_iff_eq_empty, Finset.sdiff_eq_empty_iff_subset] at hnn
    have hc := Finset.card_le_card hnn
    rw [card_keys] at hc
    rw [quiescent_of_card hc] at h
    cases h
  obtain ⟨id, hid, hen⟩ := Reach.exists_end ha.acyclic hop
  have hu : ∀ {k : String} {n : DagNode}, dag.nodes[k]? = some n →
      (k ∈ dag.nodes.keys.toFinset \ dag.settled ↔ n.settled = false) := by
    intro k n hn
    have hk : k ∈ dag.nodes := by
      rw [TreeMap.mem_iff_isSome_getElem?, hn]
      rfl
    have hse : k ∈ dag.settled ↔ n.settled = true := by
      rw [mem_settled, hn]
      simp
    rw [Finset.mem_sdiff, mem_toFinset, TreeMap.mem_keys, hse, Bool.not_eq_true]
    exact and_iff_right hk
  obtain ⟨hk, -⟩ := Finset.mem_sdiff.mp hid
  rw [mem_toFinset, TreeMap.mem_keys, TreeMap.mem_iff_isSome_getElem?] at hk
  obtain ⟨node, hno⟩ := Option.isSome_iff_exists.mp hk
  refine ⟨id, node, hno, (hu hno).mp hid, fun dep hd => ?_⟩
  have hed : dag.DependsOn id dep := ⟨node, hno, hd⟩
  obtain ⟨parent, hp⟩ := Option.isSome_iff_exists.mp
    (TreeMap.mem_iff_isSome_getElem?.mp (ha.closed id dep hed))
  refine ⟨parent, hp, ?_⟩
  by_contra hs
  rw [Bool.not_eq_true] at hs
  exact hen dep ((hu hp).mpr hs) hed

end

/-! ## One visit -/

section
variable {world : DagWorld} {dag : DagRecord} {gates : TreeMap String ParentGate}
  {caller : ProcessIdentity} {nowMillis : Nat} {id : String} {node node' : DagNode} {handed : Bool}

section
variable (h : NodeStep world gates caller nowMillis node node' handed)
include h

theorem NodeStep.sameSpec : SameSpec node node' := by
  cases h <;> exact ⟨rfl, rfl, rfl, rfl, rfl, rfl, rfl, rfl, rfl⟩

theorem NodeStep.settled_stays (hse : node.settled = true) : node' = node := by
  rw [settled_iff] at hse
  cases h with
  | kept => rfl
  | continued _ _ _ _ => rfl
  | blocked hst _ => rcases hse with hs | hs <;> simp [hs] at hst
  | submitted hst => simp [hst] at hse
  | retaken hst _ _ _ => simp [hst] at hse
  | taken hst _ _ => simp [hst] at hse

theorem NodeStep.blocked_cases (hb : node'.state = .blocked) :
    node.state = .blocked ∨ parentsFailed node gates = true := by
  cases h with
  | kept => exact .inl hb
  | continued _ _ _ _ => exact .inl hb
  | blocked _ hf => exact .inr hf
  | submitted _ => cases hb
  | retaken _ _ _ _ => cases hb
  | taken _ _ _ => cases hb

theorem NodeStep.validateProgress
    (hn : Dag.validateProgress node = .ok ()) : Dag.validateProgress node' = .ok () := by
  cases h with
  | kept => exact hn
  | continued _ _ _ _ => exact hn
  | blocked _ _ => rfl
  | submitted _ => rfl
  | retaken _ _ _ _ => rfl
  | taken _ _ _ => rfl

end

theorem claimedAction_ne_skipLive (hd : Decided world dag gates)
    (hn : dag.nodes[id]? = some node) (hs : node.state = .claimed) :
    world.claimedAction caller node ≠ .skipLive := by
  unfold DagWorld.claimedAction claimedNodeAction
  split
  · simp
  · split
    · rename_i owner how
      have hg := hd.exited id node owner hn hs how
      split
      · simp
      · simp [DagWorld.ownerLive, how, hg]
    · simp

theorem gate_of_settled (hd : Decided world dag gates) (hn : dag.nodes[id]? = some node)
    (hs : node.settled = true) : gates[id]? = some .ready ∨ FailedGate gates id := by
  rcases settled_iff.mp hs with hsu | hb
  · exact hd.submitted id node hn hsu
  · refine .inr (.inl ((dagParentGates_iff hd.computed).mpr ⟨node, hn, ?_⟩))
    simp [nodeGate, hb]

theorem executionOid_isSome (h : ∀ parent, node.parentId = some parent → node.boundOid.isSome =
    true) :
    node.executionOid.isSome = true := by
  unfold DagNode.executionOid
  unfold DagNode.parentId at h
  split
  · rfl
  · rename_i parent hb
    exact h parent (by rw [hb])

/-- **A node with settled parents moves.** -/
theorem visitNode_moves (hd : Decided world dag gates) (hn : dag.nodes[id]? = some node)
    (hop : node.settled = false)
    (hp : ∀ dep ∈ node.dependsOn, ∃ parent : DagNode, dag.nodes[dep]? = some parent ∧
      parent.settled = true) :
    (visitNode world gates caller nowMillis node).handed = true ∨
      ((visitNode world gates caller nowMillis node).after node).settled = true := by
  have hst := settled_eq_false.mp hop
  have hsu : node.state ≠ .submitted := by rcases hst with hs | hs <;> simp [hs]
  have hbl : node.state ≠ .blocked := by rcases hst with hs | hs <;> simp [hs]
  by_cases hf : parentsFailed node gates = true
  · right
    unfold visitNode
    rw [if_neg hsu, if_pos ⟨hbl, hf⟩]
    rfl
  · rw [Bool.not_eq_true] at hf
    have hr : ∀ dep ∈ node.dependsOn, gates[dep]? = some .ready := by
      intro dep hde
      obtain ⟨parent, hpa, hse⟩ := hp dep hde
      rcases gate_of_settled hd hpa hse with hop | hba
      · exact hop
      · obtain ⟨hne, hne'⟩ := parentsFailed_eq_false_iff.mp hf dep hde
        rcases hba with hba | hba
        · exact absurd hba hne
        · exact absurd hba hne'
    have hb := hd.bound id node hn hop hr
    have hoi := executionOid_isSome hb
    unfold visitNode
    rw [if_neg hsu, if_neg (by simp [hf])]
    rcases hst with hw | hc
    · left
      simp only [hw, if_pos (parentsReady_iff.mpr ⟨hr, hb⟩)]
    · simp only [hc]
      cases ha : world.claimedAction caller node with
      | markSubmitted => exact .inr rfl
      | «continue» =>
        left
        simp only [if_pos hoi]
      | retake =>
        left
        simp only [if_pos hoi]
      | skipLive => exact absurd ha (claimedAction_ne_skipLive hd hn hc)

end

/-! ## One call -/

section
variable {runId : Uuid} {store : DagStore} {dag dag' : DagRecord} {world : DagWorld}
  {gates : TreeMap String ParentGate} {caller : ProcessIdentity} {nowMillis : Nat}
  {writes : List DagWrite}

theorem persistDag_of (h : dag.validate = .ok ()) :
    persistDag dag = .ok [.dag dag, syncPendingDag dag] := by
  simp [persistDag, h, pure, Except.pure]

theorem validate_of_scanned {claim} (hv : dag.validate = .ok ()) (hh : SameHeader dag dag')
    (h : Scanned (NodeStep world gates caller nowMillis) dag dag' claim) :
    dag'.validate = .ok () := by
  obtain ⟨hve, hp, hno, hd⟩ := validate_iff.mp hv
  have hol : ∀ (id : String) (node' : DagNode), dag'.nodes[id]? = some node' →
      ∃ node handed, dag.nodes[id]? = some node ∧
        NodeStep world gates caller nowMillis node node' handed := by
    intro id node' hn'
    cases hn : dag.nodes[id]? with
    | none =>
      rw [h.absent id hn] at hn'
      cases hn'
    | some node =>
      obtain ⟨found, handed, hf, hs, -⟩ := h.present id node hn
      cases hf.symm.trans hn'
      exact ⟨node, handed, rfl, hs⟩
  have hk : ∀ id : String, id ∈ dag.nodes → id ∈ dag'.nodes := by
    intro id hid
    obtain ⟨node, hn⟩ := Option.isSome_iff_exists.mp (TreeMap.mem_iff_isSome_getElem?.mp hid)
    obtain ⟨node', _, hn', -⟩ := h.present id node hn
    rw [TreeMap.mem_iff_isSome_getElem?, hn']
    rfl
  refine validate_iff.mpr ⟨hh.version.trans hve, hh.maxParallel ▸ hp, ?_, ?_⟩
  · intro id node' hn'
    obtain ⟨node, handed, hn, hs⟩ := hol id node' hn'
    have hc := hno id node hn
    refine validateNode_congr hh.runId hk hs.sameSpec (hs.validateProgress ?_) hc
    exact (validateNode_ok hc).2
  · intro id id' first second hfi hse hne
    obtain ⟨first₀, _, hf₀, hs₁⟩ := hol id first hfi
    obtain ⟨second₀, _, hs₀, hs₂⟩ := hol id' second hse
    obtain ⟨ht, htu⟩ := hd id id' first₀ second₀ hf₀ hs₀ hne
    refine ⟨?_, ?_⟩
    · show first.taskId ≠ second.taskId
      rw [hs₁.sameSpec.taskId, hs₂.sameSpec.taskId]
      exact ht
    · show first.turnId ≠ second.turnId
      rw [hs₁.sameSpec.turnId, hs₂.sameSpec.turnId]
      exact htu

theorem claim_returns {run first} (hd : store.dag = some dag) (hri : dag.runId = runId)
    (hv : dag.validate = .ok ()) (hr : completeUnpublishedDagRun dag store.run = .ok (run, first))
    (hg : dagParentGates world dag = .ok gates) :
    ∃ claim writes, claimNextEligibleDagNode world runId caller nowMillis store =
      (.ok claim, writes) := by
  have hl : store.loadRunDag runId = .ok (some dag) := by
    simp [DagStore.loadRunDag, hd, hv, Except.mapError, ensure_of hri, pure, Except.pure]
  simp only [claimNextEligibleDagNode, hl, claimDag, hr, hg]
  generalize hs : claimScan (visitNode world gates caller nowMillis) dag.nodes.keys
    ⟨dag, run, first, false⟩ = result
  obtain ⟨scan, claim⟩ := result
  have hsp := claimScan_spec (fun _ => .kept) (fun _ => visitNode_step) TreeMap.nodup_keys hs
  have hv' := validate_of_scanned hv ((claimScan_framed hs).header) hsp
  unfold finishClaim
  split
  · rw [persistDag_of hv']
    exact ⟨claim, _, rfl⟩
  · exact ⟨claim, _, rfl⟩

theorem claim_none (hd : store.dag = some dag)
    (h : claimNextEligibleDagNode world runId caller nowMillis store = (.ok none, writes)) :
    ∃ gates dag', dagParentGates world dag = .ok gates ∧
      (store.writeAll writes).dag = some dag' ∧ Visited world gates caller nowMillis dag dag' := by
  obtain ⟨⟨e, he⟩, -⟩ | ⟨claim, dag', ha, -, hw, gates, hg, -, hv⟩ := claim_cases hd h
  · cases he
  · cases ha
    exact ⟨gates, dag', hg, hw.dag_eq hd, hv rfl⟩

variable (h : Visited world gates caller nowMillis dag dag')
include h

theorem Visited.step {id : String} {node : DagNode} (hn : dag.nodes[id]? = some node) :
    ∃ node', dag'.nodes[id]? = some node' ∧
      NodeStep world gates caller nowMillis node node' false := by
  obtain ⟨hne, hh⟩ := h.present id node hn
  refine ⟨_, hne, ?_⟩
  rw [← hh]
  exact visitNode_step

theorem Visited.origin {id : String} {node' : DagNode} (hn' : dag'.nodes[id]? = some node') :
    ∃ node, dag.nodes[id]? = some node ∧ NodeStep world gates caller nowMillis node node'
      false := by
  cases hn : dag.nodes[id]? with
  | none =>
    rw [h.absent id hn] at hn'
    cases hn'
  | some node =>
    obtain ⟨found, hf, hs⟩ := h.step hn
    cases hf.symm.trans hn'
    exact ⟨node, rfl, hs⟩

theorem Visited.dependsOn_iff {id dep : String} : dag'.DependsOn id dep ↔ dag.DependsOn id dep := by
  constructor
  · rintro ⟨node', hn', hd⟩
    obtain ⟨node, hn, hs⟩ := h.origin hn'
    exact ⟨node, hn, hs.sameSpec.dependsOn ▸ hd⟩
  · rintro ⟨node, hn, hd⟩
    obtain ⟨node', hn', hs⟩ := h.step hn
    exact ⟨node', hn', hs.sameSpec.dependsOn.symm ▸ hd⟩

theorem Visited.mem_iff {id : String} : id ∈ dag'.nodes ↔ id ∈ dag.nodes := by
  rw [TreeMap.mem_iff_isSome_getElem?, TreeMap.mem_iff_isSome_getElem?]
  cases hn : dag.nodes[id]? with
  | none => rw [h.absent id hn]
  | some node =>
    obtain ⟨node', hn', -⟩ := h.step hn
    rw [hn']
    rfl

theorem Visited.acyclic (ha : dag.Acyclic) : dag'.Acyclic := by
  have hed : dag'.DependsOn = dag.DependsOn := by
    funext id dep
    exact propext h.dependsOn_iff
  refine ⟨fun id dep heg => h.mem_iff.mpr (ha.closed id dep (h.dependsOn_iff.mp heg)), ?_⟩
  rw [hed]
  exact ha.acyclic

theorem Visited.settled_subset : dag.settled ⊆ dag'.settled := by
  intro id hid
  obtain ⟨node, hn, hs⟩ := mem_settled.mp hid
  obtain ⟨node', hn', hst⟩ := h.step hn
  obtain rfl := hst.settled_stays hs
  exact mem_settled.mpr ⟨_, hn', hs⟩

theorem Visited.size_eq : dag'.nodes.size = dag.nodes.size := by
  rw [← card_keys, ← card_keys]
  congr 1
  ext id
  rw [mem_toFinset, mem_toFinset, TreeMap.mem_keys, TreeMap.mem_keys, h.mem_iff]

/-- **A call without a claim settles a node, unless all are.** -/
theorem Visited.advances (ha : dag.Acyclic) (hd : Decided world dag gates) :
    dag.settled.card < dag'.settled.card ∨ dagRunIsQuiescent dag' = true := by
  by_cases hq : dagRunIsQuiescent dag = true
  · right
    refine quiescent_iff.mpr fun id node' hn' => ?_
    obtain ⟨node, hn, hst⟩ := h.origin hn'
    have hs := quiescent_iff.mp hq id node hn
    obtain rfl := hst.settled_stays hs
    exact hs
  · left
    rw [Bool.not_eq_true] at hq
    obtain ⟨id, node, hn, hop, hp⟩ := exists_frontier ha hq
    obtain ⟨hne, hh⟩ := h.present id node hn
    rcases visitNode_moves hd hn hop hp with hb | hs
    · cases hh.symm.trans hb
    · refine Finset.card_lt_card (Finset.ssubset_iff_of_subset h.settled_subset |>.mpr ⟨id, ?_, ?_⟩)
      · exact mem_settled.mpr ⟨_, hne, hs⟩
      · intro hol
        obtain ⟨found, hf, hfs⟩ := mem_settled.mp hol
        cases hn.symm.trans hf
        rw [hop] at hfs
        cases hfs

end

/-! ## Consecutive calls -/

abbrev Gates := TreeMap String ParentGate

/-- Consecutive calls that return no claim, each with the gates it computed. -/
inductive Idles (runId : Uuid) (start : DagStore) : List Gates → DagStore → Prop
  | start : Idles runId start [] start
  | call {views : List Gates} {store : DagStore} {dag : DagRecord}
      {world : DagWorld} {gates : Gates} {caller : ProcessIdentity}
      {nowMillis : Nat} {writes : List DagWrite} (hidle : Idles runId start views store)
      (hdag : store.dag = some dag) (hdecided : Decided world dag gates)
      (hcall : claimNextEligibleDagNode world runId caller nowMillis store = (.ok none, writes)) :
      Idles runId start (views ++ [gates]) (store.writeAll writes)

structure Usable (runId : Uuid) (store : DagStore) (dag : DagRecord) : Prop where
  stored : store.dag = some dag
  identity : dag.runId = runId
  valid : dag.validate = .ok ()
  acyclic : dag.Acyclic
  /-- The run of the graph is stored or can be made up. -/
  run : ∃ run writes, completeUnpublishedDagRun dag store.run = .ok (run, writes)

/-- An ancestor is blocked, or its gate had failed in one of the calls. -/
def FailedAncestor (dag : DagRecord) (views : List Gates) (id : String) :
    Prop :=
  ∃ ancestor, TransGen dag.DependsOn id ancestor ∧
    ((∃ node, dag.nodes[ancestor]? = some node ∧ node.state = .blocked) ∨
      ∃ gates ∈ views, FailedGate gates ancestor)

section
variable {runId : Uuid} {start store : DagStore} {first dag : DagRecord}
  {views : List Gates}

/-- What a sequence of idle calls keeps and what it has reached. -/
structure IdleState (first : DagRecord) (views : List Gates)
    (dag : DagRecord) : Prop where
  acyclic : dag.Acyclic
  size : dag.nodes.size = first.nodes.size
  reached : views.length ≤ dag.settled.card ∨ dagRunIsQuiescent dag = true
  blocked : ∀ (id : String) (node : DagNode), dag.nodes[id]? = some node → node.state = .blocked →
    (∃ old, first.nodes[id]? = some old ∧ old.state = .blocked) ∨
      ∃ dep, dag.DependsOn id dep ∧ ∃ gates ∈ views, FailedGate gates dep

theorem Idles.state (h : Idles runId start views store) (hst : start.dag = some first)
    (ha : first.Acyclic) : ∃ dag, store.dag = some dag ∧ IdleState first views dag := by
  induction h with
  | start =>
    refine ⟨first, hst, ha, rfl, .inl (Nat.zero_le _), fun id node hn hb => ?_⟩
    exact .inl ⟨node, hn, hb⟩
  | @call views store dag world gates caller nowMillis writes _ hda hd hc ih =>
    obtain ⟨found, hf, hs⟩ := ih
    cases hda.symm.trans hf
    obtain ⟨gates', dag', hg', hsr, hv⟩ := claim_none hda hc
    obtain rfl := Except.ok.inj (hd.computed.symm.trans hg')
    refine ⟨dag', hsr, hv.acyclic hs.acyclic, hv.size_eq.trans hs.size,
      ?_, fun id node' hn' hb => ?_⟩
    · rcases hv.advances hs.acyclic hd with hm | hq
      · rcases hs.reached with hca | hq
        · left
          simp only [length_append, length_singleton]
          omega
        · -- A settled graph cannot settle further.
          right
          have hal : dag'.settled.card ≤ dag'.nodes.keys.toFinset.card :=
            Finset.card_le_card settled_subset_keys
          rw [card_keys, hv.size_eq] at hal
          have hfu : dag.nodes.size ≤ dag.settled.card := by
            rw [← card_keys]
            refine Finset.card_le_card fun id hid => ?_
            rw [mem_toFinset, TreeMap.mem_keys, TreeMap.mem_iff_isSome_getElem?] at hid
            obtain ⟨node, hn⟩ := Option.isSome_iff_exists.mp hid
            exact mem_settled.mpr ⟨node, hn, quiescent_iff.mp hq id node hn⟩
          omega
      · exact .inr hq
    · obtain ⟨node, hn, hsp⟩ := hv.origin hn'
      rcases hsp.blocked_cases hb with hol | hfa
      · rcases hs.blocked id node hn hol with hfi | ⟨dep, hed, view, hvi, hg⟩
        · exact .inl hfi
        · exact .inr ⟨dep, hv.dependsOn_iff.mpr hed, view, mem_append_left _ hvi, hg⟩
      · obtain ⟨dep, hde, hg⟩ : ∃ dep ∈ node.dependsOn, FailedGate gates dep := by
          simpa [parentsFailed, FailedGate] using hfa
        exact .inr ⟨dep, hv.dependsOn_iff.mpr ⟨node, hn, hde⟩, gates,
          mem_append_right _ mem_cons_self, hg⟩

/-- **Every call advances the graph, and as many calls as it has nodes settle
it.** A call on a graph in which nothing outside is pending returns a claim,
settles another node or leaves all settled. After as many calls without a claim
as there are nodes all are settled, and the blocked ones are those that are not
submitted and were blocked at the start or have a failed or blocked ancestor. -/
theorem claims_settle (h : Usable runId start first) :
    (∀ world gates caller nowMillis, Decided world first gates →
      ∃ claim writes dag, claimNextEligibleDagNode world runId caller nowMillis start =
          (.ok claim, writes) ∧ (start.writeAll writes).dag = some dag ∧
        (claim.isSome = true ∨ first.settled.card < dag.settled.card ∨
          dagRunIsQuiescent dag = true)) ∧
    ∀ views store, Idles runId start views store → first.nodes.size ≤ views.length →
      ∃ dag, store.dag = some dag ∧ dagRunIsQuiescent dag = true ∧
        ∀ (id : String) (node : DagNode), dag.nodes[id]? = some node →
          (node.state = .blocked ↔ node.state ≠ .submitted ∧
            ((∃ old, first.nodes[id]? = some old ∧ old.state = .blocked) ∨
              FailedAncestor dag views id)) := by
  refine ⟨fun world gates caller nowMillis hd => ?_, fun views store hid hl => ?_⟩
  · obtain ⟨run, ws, hr⟩ := h.run
    obtain ⟨claim, writes, hc⟩ := claim_returns h.stored h.identity h.valid hr hd.computed
    cases claim with
    | some c =>
      obtain ⟨dag, hw, -⟩ := claim_effect h.stored hc
      exact ⟨some c, writes, dag, hc, hw.dag_eq h.stored, .inl rfl⟩
    | none =>
      obtain ⟨gates', dag, hg', hst, hv⟩ := claim_none h.stored hc
      obtain rfl := Except.ok.inj (hd.computed.symm.trans hg')
      exact ⟨none, writes, dag, hc, hst, .inr (hv.advances h.acyclic hd)⟩
  · obtain ⟨dag, hda, hs⟩ := hid.state h.stored h.acyclic
    have hq : dagRunIsQuiescent dag = true := by
      rcases hs.reached with hca | hq
      · refine quiescent_of_card ?_
        rw [hs.size]
        exact hl.trans hca
      · exact hq
    refine ⟨dag, hda, hq, fun id node hn => ⟨fun hb => ?_, fun ⟨hop, _⟩ => ?_⟩⟩
    · refine ⟨by simp [hb], ?_⟩
      rcases hs.blocked id node hn hb with hf | ⟨dep, hed, hfa⟩
      · exact .inl hf
      · exact .inr ⟨dep, .single hed, .inr hfa⟩
    · exact (settled_iff.mp (quiescent_iff.mp hq id node hn)).resolve_left hop

end

/-! ## A parent that fails and recovers -/

theorem Decided.of_entries {world dag gates} (hg : dagParentGates world dag = .ok gates)
    (h : ∀ entry ∈ dag.nodes.toList, entry.2.parentId = none ∧ entry.2.state ≠ .claimed ∧
      (entry.2.state = .submitted → nodeGate world entry.2 = .ok .ready ∨
      nodeGate world entry.2 = .ok .failed)) : Decided world dag gates := by
  have hen : ∀ {id : String} {node : DagNode}, dag.nodes[id]? = some node →
      (id, node) ∈ dag.nodes.toList := fun hn =>
    TreeMap.mem_toList_iff_getElem?_eq_some.mpr hn
  refine ⟨hg, fun id node hn hs => ?_, fun id node hn _ _ parent hp => ?_,
    fun id node owner hn hs => ?_⟩
  · rcases (h _ (hen hn)).2.2 hs with hr | hf
    · exact .inl ((dagParentGates_iff hg).mpr ⟨node, hn, hr⟩)
    · exact .inr (.inl ((dagParentGates_iff hg).mpr ⟨node, hn, hf⟩))
  · rw [(h _ (hen hn)).1] at hp
    cases hp
  · exact absurd hs (h _ (hen hn)).2.1

/-- The surroundings once the task of `a` has ended, without integration. -/
def endedWorld (state : TaskState) (outcome : TaskOutcome) : DagWorld where
  task := fun taskId =>
    if taskId = ⟨1⟩ then some
      { info := ⟨⟨1⟩, some 9, "project", "worktree"⟩
        status := ⟨state, some outcome, none, [⟨⟨1⟩, some .succeeded, some outcome⟩]⟩
        runner := none, abandonCode := none, submissionIntentTurnId := none
        submissionRollbackTurnId := none, fetchedHead := none, autoContinueIntent := none }
    else none
  turnIds := fun _ => []
  verdict := fun _ => .exited
  integration := some { retainsEvidence := fun _ => false, readTask := fun _ => .ok (false, none) }

def untilParentSubmitted : List DagOp :=
  [.claim (integratedWorld .queued) ⟨5, 5⟩ 1, .submitted "a" ⟨1⟩]

def untilChildBlocked : List DagOp :=
  untilParentSubmitted ++ [.claim (endedWorld .open .blocked) ⟨5, 5⟩ 2]

/-- In the graph only `b` depends on something, and that is `a`. -/
def PairEdges (dag : DagRecord) : Prop :=
  "a" ∈ dag.nodes ∧ ∀ entry ∈ dag.nodes.toList, ∀ dep ∈ entry.2.dependsOn, entry.1 = "b" ∧ dep = "a"

instance (dag : DagRecord) : Decidable (PairEdges dag) := by unfold PairEdges; infer_instance

theorem PairEdges.edge {dag} (h : PairEdges dag) {id dep} (hd : dag.DependsOn id dep) :
    id = "b" ∧ dep = "a" := by
  obtain ⟨node, hn, hl⟩ := hd
  exact h.2 (id, node) (TreeMap.mem_toList_iff_getElem?_eq_some.mpr hn) dep hl

theorem PairEdges.ancestor {dag} (h : PairEdges dag) {id ancestor}
    (hp : TransGen dag.DependsOn id ancestor) : id = "b" ∧ ancestor = "a" := by
  obtain ⟨next, hf, -⟩ := TransGen.head'_iff.mp hp
  obtain ⟨last, -, hl⟩ := TransGen.tail'_iff.mp hp
  exact ⟨(h.edge hf).1, (h.edge hl).2⟩

theorem PairEdges.acyclic {dag} (h : PairEdges dag) : dag.Acyclic := by
  refine ⟨fun id dep hd => (h.edge hd).2 ▸ h.1, fun id hc => ?_⟩
  obtain ⟨hb, ha⟩ := h.ancestor hc
  rw [hb] at ha
  revert ha
  decide

section
variable {start : DagStore} {views : List Gates}

theorem pair_usable (store : DagStore) (hr : store.run.isSome = true)
    (h : (store.dag.map fun dag => decide (dag.runId = 9 ∧ dag.validate = .ok () ∧ PairEdges dag)) =
      some true) : ∃ dag, Usable 9 store dag ∧ PairEdges dag := by
  obtain ⟨dag, hd, hc⟩ := Option.map_eq_some_iff.mp h
  obtain ⟨hid, hv, hed⟩ := of_decide_eq_true hc
  obtain ⟨run, hr⟩ := Option.isSome_iff_exists.mp hr
  refine ⟨dag, ⟨hd, hid, hv, hed.acyclic, run, [syncPendingDag dag], ?_⟩, hed⟩
  rw [hr]
  rfl

theorem pair_idles (ops : List DagOp) (world : DagWorld) (gate : ParentGate)
    (hid : Idles 9 start views (pairAfter ops))
    (hca : (claimNextEligibleDagNode world 9 ⟨5, 5⟩ 3 (pairAfter ops)).1 = .ok none)
    (h : ((pairAfter ops).dag.map fun dag => (dagParentGates world dag).isOk &&
      decide (∀ entry ∈ dag.nodes.toList, entry.2.parentId = none ∧ entry.2.state ≠ .claimed ∧
        (entry.2.state = .submitted → nodeGate world entry.2 = .ok .ready ∨
          nodeGate world entry.2 = .ok .failed)) &&
      decide (∀ entry ∈ dag.nodes.toList, entry.1 = "a" → nodeGate world entry.2 = .ok gate)) =
        some true) :
    ∃ gates : Gates, Idles 9 start (views ++ [gates]) (pairAfter (ops ++ [.claim world ⟨5, 5⟩ 3])) ∧
      ∀ other, gates["a"]? = some other → other = gate := by
  obtain ⟨dag, hd, hc⟩ := Option.map_eq_some_iff.mp h
  simp only [Bool.and_eq_true, decide_eq_true_eq] at hc
  obtain ⟨⟨hok, hen⟩, hga⟩ := hc
  cases hg : dagParentGates world dag with
  | error e =>
    rw [hg] at hok
    cases hok
  | ok gates =>
    refine ⟨gates, ?_, fun other hot => ?_⟩
    · have ha : pairAfter (ops ++ [.claim world ⟨5, 5⟩ 3]) = (pairAfter ops).writeAll
          (claimNextEligibleDagNode world 9 ⟨5, 5⟩ 3 (pairAfter ops)).2 := by
        unfold pairAfter
        rw [foldl_append]
        rfl
      rw [ha]
      exact .call hid hd (.of_entries hg hen) (Prod.ext hca rfl)
    · obtain ⟨node, hn, how⟩ := (dagParentGates_iff hg).mp hot
      have hs := hga ("a", node) (TreeMap.mem_toList_iff_getElem?_eq_some.mpr hn) rfl
      exact Except.ok.inj (how.symm.trans hs)

end

theorem pair_node {store : DagStore} {dag : DagRecord} (id : String) (state : DagNodeState)
    (hd : store.dag = some dag) (h : (store.node id).map (·.state) = some state) :
    ∃ node, dag.nodes[id]? = some node ∧ node.state = state := by
  obtain ⟨node, hn, hs⟩ := Option.map_eq_some_iff.mp h
  obtain ⟨found, hf, hn⟩ := node_eq_some_iff.mp hn
  cases hd.symm.trans hf
  exact ⟨node, hn, hs⟩

theorem pair_size {store : DagStore} {dag : DagRecord} (hd : store.dag = some dag)
    (h : store.dag.map (·.nodes.size) = some 2) : dag.nodes.size = 2 := by
  rw [hd] at h
  exact Option.some.inj h

/-- Two calls settle the graph, and the child of the failed parent is blocked. -/
theorem claims_settle_pair :
    ∃ views store dag node, Idles 9 (pairAfter untilParentSubmitted) views store ∧
      store.dag = some dag ∧ dagRunIsQuiescent dag = true ∧ dag.nodes["b"]? = some node ∧
      node.state = .blocked ∧ FailedAncestor dag views "b" := by
  obtain ⟨first, hu, -⟩ := pair_usable (pairAfter untilParentSubmitted) (by decide) (by decide)
  obtain ⟨gates₁, hi₁, -⟩ := pair_idles untilParentSubmitted (endedWorld .open .blocked) .failed
    .start (by decide) (by decide)
  obtain ⟨gates₂, hi₂, -⟩ := pair_idles _ (endedWorld .open .blocked) .failed
    hi₁ (by decide) (by decide)
  have hsi := pair_size hu.stored (by decide)
  obtain ⟨dag, hd, hq, hb⟩ := (claims_settle hu).2 _ _ hi₂ (by rw [hsi]; rfl)
  obtain ⟨node, hn, hs⟩ := pair_node "b" .blocked hd (by decide)
  obtain ⟨old, hol, hw⟩ := pair_node "b" .waiting hu.stored (by decide)
  refine ⟨_, _, dag, node, hi₂, hd, hq, hn, hs, ?_⟩
  obtain ⟨-, ⟨found, hf, hba⟩ | ha⟩ := (hb "b" node hn).mp hs
  · cases hol.symm.trans hf
    cases hw.symm.trans hba
  · exact ha

/-- The child of a parent that failed stays blocked when a follow-up of the
parent succeeds: no ancestor is blocked, and no call finds a gate failed. -/
theorem block_outlives_failure :
    ∃ events start first views store dag node, DagRun 9 pairStore events start ∧
      Usable 9 start first ∧ Idles 9 start views store ∧ first.nodes.size ≤ views.length ∧
      store.dag = some dag ∧ dag.nodes["b"]? = some node ∧ node.state = .blocked ∧
      ¬ FailedAncestor dag views "b" := by
  obtain ⟨events, hru⟩ := (DagRun.start : DagRun 9 pairStore [] _).of_calls untilChildBlocked
  obtain ⟨first, hu, -⟩ := pair_usable (pairAfter untilChildBlocked) (by decide) (by decide)
  obtain ⟨gates₁, hi₁, hr₁⟩ := pair_idles untilChildBlocked (endedWorld .closed .done) .ready
    .start (by decide) (by decide)
  obtain ⟨gates₂, hi₂, hr₂⟩ := pair_idles _ (endedWorld .closed .done) .ready
    hi₁ (by decide) (by decide)
  obtain ⟨dag, hl, hed⟩ := pair_usable (pairAfter (untilChildBlocked ++
    [.claim (endedWorld .closed .done) ⟨5, 5⟩ 3] ++ [.claim (endedWorld .closed .done) ⟨5, 5⟩ 3]))
    (by decide) (by decide)
  obtain ⟨node, hn, hs⟩ := pair_node "b" .blocked hl.stored (by decide)
  obtain ⟨parent, hp, hsu⟩ := pair_node "a" .submitted hl.stored (by decide)
  have hsi := pair_size hu.stored (by decide)
  refine ⟨events, _, first, _, _, dag, node, hru, hu, hi₂, by rw [hsi]; rfl,
    hl.stored, hn, hs, ?_⟩
  rintro ⟨ancestor, hpa, hba⟩
  obtain rfl := (hed.ancestor hpa).2
  rcases hba with ⟨found, hfo, hb⟩ | ⟨gates, hm, hf⟩
  · cases hp.symm.trans hfo
    cases hsu.symm.trans hb
  · have hr : ∀ other, gates["a"]? = some other → other = .ready := by
      rcases mem_append.mp hm with hfi | hse
      · obtain rfl : gates = gates₁ := by simpa using hfi
        exact hr₁
      · obtain rfl : gates = gates₂ := by simpa using hse
        exact hr₂
    rcases hf with hf | hf
    · cases hr _ hf
    · cases hr _ hf

end MacWorker.Dag
