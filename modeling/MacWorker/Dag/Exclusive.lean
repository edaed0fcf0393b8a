import MacWorker.Dag.Dispatch

/-! # Live claims

A claim belongs to the process that took it until that process is known to be gone. Two
things still happen to a live claim: the scan of any process marks it submitted once the
submission is complete, and blocks it when a parent has failed.

**`live_claim_stable`** collects what every call of every run keeps. `live_claim_lost`
shows a live claim that is blocked, and then marked submitted by its owner, which does not
look at the state of the node. -/
namespace MacWorker.Dag
open Std (TreeMap)
open Fallible

structure SameTask (node node' : DagNode) : Prop where
  taskId : node'.taskId = node.taskId
  turnId : node'.turnId = node.turnId
  frozen : node'.frozen = node.frozen

theorem SameTask.trans {first second third} (h : SameTask first second)
    (h' : SameTask second third) :
    SameTask first third :=
  ⟨h'.taskId.trans h.taskId, h'.turnId.trans h.turnId, h'.frozen.trans h.frozen⟩

/-- The call is a claim that finds the gate of a parent failed. -/
def DagEvent.FailedParent (event : DagEvent) (node : DagNode) : Prop :=
  ∃ world caller nowMillis dag gates, event.op = .claim world caller nowMillis ∧
    event.before.dag = some dag ∧ dagParentGates world dag = .ok gates ∧
    ∃ parent ∈ node.dependsOn,
      gates[parent]? = some .failed ∨ gates[parent]? = some .integrationFailed

/-- The call is a claim by a process that is told that `owner` has exited. -/
def DagEvent.SeesExit (event : DagEvent) (owner : ProcessIdentity) : Prop :=
  ∃ world caller nowMillis, event.op = .claim world caller nowMillis ∧ world.verdict owner = .exited

structure Stable (event : DagEvent) (id : String) (node node' : DagNode) : Prop where
  same : SameTask node node'
  /-- A claimed node goes to its owner, or its owner is gone. -/
  exclusive : ∀ owner world caller nowMillis claim, node.state = .claimed →
    node.claimedBy = some owner → event.op = .claim world caller nowMillis →
    event.handed = some claim → claim.batchId = id → caller = owner ∨ event.SeesExit owner
  held : ∀ owner, node.state = .claimed → node.claimedBy = some owner →
    node'.state = .claimed ∧ node'.claimedBy = some owner ∨ node'.state = .submitted ∨
      node'.state = .blocked ∨ event.SeesExit owner
  blocked : node'.state = .blocked → node.state = .blocked ∨ event.FailedParent node
  blocked_stays : node.state = .blocked →
    (∃ world caller nowMillis, event.op = .claim world caller nowMillis) → node' = node
  submitted_stays : node.state = .submitted → node'.state = .submitted

section
variable {runId : Uuid} {start store : DagStore} {events : List DagEvent} {event : DagEvent}
  {id : String} {op : DagOp} {dag : DagRecord} {node node' : DagNode}

theorem NodeChange.sameTask (h : NodeChange op dag node node') : SameTask node node' := by
  cases h with
  | kept => exact ⟨rfl, rfl, rfl⟩
  | scanned _ _ _ hs => cases hs <;> exact ⟨rfl, rfl, rfl⟩
  | bound _ _ => exact ⟨rfl, rfl, rfl⟩
  | submitted _ => exact ⟨rfl, rfl, rfl⟩

section
variable (h : NodeChange event.op dag node node')
include h

theorem NodeChange.held {owner} (hs : node.state = .claimed) (how : node.claimedBy = some owner) :
    node'.state = .claimed ∧ node'.claimedBy = some owner ∨ node'.state = .submitted ∨
      node'.state = .blocked ∨ event.SeesExit owner := by
  cases h with
  | kept => exact .inl ⟨hs, how⟩
  | bound _ _ => exact .inl ⟨hs, how⟩
  | submitted _ => exact .inr (.inl rfl)
  | scanned hop _ _ hst =>
    cases hst with
    | kept => exact .inl ⟨hs, how⟩
    | blocked _ _ => exact .inr (.inr (.inl rfl))
    | submitted _ => exact .inr (.inl rfl)
    | continued _ _ _ _ => exact .inl ⟨hs, how⟩
    | retaken _ _ hd _ => exact .inr (.inr (.inr ⟨_, _, _, hop, hd owner how⟩))
    | taken hw _ _ =>
      cases hs.symm.trans hw

theorem NodeChange.blocked_cases (hd : event.before.dag = some dag) (hs : node'.state = .blocked) :
    node.state = .blocked ∨ event.FailedParent node := by
  cases h with
  | kept => exact .inl hs
  | bound _ _ => exact .inl hs
  | submitted _ => cases hs
  | scanned hop _ hg hst =>
    cases hst with
    | kept => exact .inl hs
    | submitted _ => cases hs
    | continued _ _ _ _ => exact .inl hs
    | retaken _ _ _ _ => cases hs
    | taken _ _ _ => cases hs
    | blocked _ hf =>
      right
      obtain ⟨parent, hm, hga⟩ := List.any_eq_true.mp hf
      exact ⟨_, _, _, dag, _, hop, hd, hg, parent, hm, by simpa using hga⟩

theorem NodeChange.blocked_stays (hs : node.state = .blocked)
    (hop : ∃ world caller nowMillis, event.op = .claim world caller nowMillis) : node' = node := by
  obtain ⟨_, _, _, hop⟩ := hop
  cases h with
  | kept => rfl
  | bound hot _ =>
    cases hop.symm.trans hot
  | submitted hot =>
    cases hop.symm.trans hot
  | scanned _ _ _ hst =>
    cases hst with
    | kept => rfl
    | continued _ _ _ _ => rfl
    | blocked hot _ => simp [hs] at hot
    | submitted hot => simp [hs] at hot
    | retaken hot _ _ _ => simp [hs] at hot
    | taken hot _ _ => simp [hs] at hot

end

theorem DagCall.exclusive (h : DagCall runId event) (hn : event.before.node id = some node)
    {owner caller world nowMillis claim} (hst : node.state = .claimed)
    (how : node.claimedBy = some owner) (hop : event.op = .claim world caller nowMillis)
    (hh : event.handed = some claim) (hid : claim.batchId = id) :
    caller = owner ∨ event.SeesExit owner := by
  cases h with
  | crashed _ _ _ => cases hh
  | returned op store =>
    obtain rfl : op = .claim world caller nowMillis := hop
    obtain ⟨dag, gates, found, hda, _, _, hf, hs⟩ := handed_step (handedOut_eq_some.mp hh)
    have hsa : store.node id = some found := by
      rw [← hid]
      exact node_eq_some_iff.mpr ⟨dag, hda, hf⟩
    cases hsa.symm.trans hn
    generalize claim.node = after at hs
    cases hs with
    | continued _ _ hc _ => exact .inl (Option.mem_unique hc how)
    | retaken _ _ hd _ => exact .inr ⟨world, caller, nowMillis, rfl, hd owner how⟩
    | taken hw _ _ =>
      cases hst.symm.trans hw

theorem DagCall.stable (h : DagCall runId event) (hn : event.before.node id = some node) :
    ∃ node', event.after.node id = some node' ∧ Stable event id node node' := by
  obtain ⟨dag, node', hd, ha, hc⟩ := h.change hn
  exact ⟨node', ha, {
    same := hc.sameTask
    exclusive := fun _ _ _ _ _ hs how hop hh hid =>
      h.exclusive hn hs how hop hh hid
    held := fun _ => hc.held
    blocked := hc.blocked_cases hd
    blocked_stays := hc.blocked_stays
    submitted_stays := hc.submitted_stays }⟩

theorem DagRun.sameTask (h : DagRun runId start events store) (hn : store.node id = some node) :
    ∃ first, start.node id = some first ∧ SameTask first node ∧
      (first.state = .submitted → node.state = .submitted) := by
  induction h generalizing node with
  | start => exact ⟨node, hn, ⟨rfl, rfl, rfl⟩, fun hs => hs⟩
  | call _ hc ih =>
    obtain ⟨old, hol⟩ := hc.before_of_after hn
    obtain ⟨dag, new, _, ha, hch⟩ := hc.change hol
    cases ha.symm.trans hn
    obtain ⟨first, hf, hsa, hsu⟩ := ih hol
    exact ⟨first, hf, hsa.trans hch.sameTask,
      fun hs => hch.submitted_stays (hsu hs)⟩

end

/-- **A live claim is exclusive.** In every run and every call of it, a claimed
node is handed to nobody but its owner while the owner is not reported as
exited, and the claim ends only in a submission or with a failed parent. The
task of a node never changes, a blocked node stays blocked in every claim, and
a submitted one stays submitted. -/
theorem live_claim_stable {runId : Uuid} {start : DagStore} {events : List DagEvent}
    {event : DagEvent} (hrun : DagRun runId start events event.before)
    (hcall : DagCall runId event) {id : String} {node : DagNode}
    (hnode : event.before.node id = some node) :
    (∃ first, start.node id = some first ∧ SameTask first node ∧
      (first.state = .submitted → node.state = .submitted)) ∧
    ∃ node', event.after.node id = some node' ∧ Stable event id node node' :=
  ⟨hrun.sameTask hnode, hcall.stable hnode⟩

def rivalClaim : DagEvent where
  op := .claim (integratedWorld .open) ⟨6, 6⟩ 3
  before := pairAfter untilBothClaimed
  handed := handedOut ((DagOp.claim (integratedWorld .open) ⟨6, 6⟩ 3).run 9
    (pairAfter untilBothClaimed)).1
  after := (pairAfter untilBothClaimed).writeAll
    ((DagOp.claim (integratedWorld .open) ⟨6, 6⟩ 3).run 9 (pairAfter untilBothClaimed)).2

theorem live_claim_stable_rival :
    ∃ events first node node', DagRun 9 pairStore events rivalClaim.before ∧
      rivalClaim.before.node "b" = some node ∧ node.claimedBy = some ⟨5, 5⟩ ∧
      pairStore.node "b" = some first ∧ SameTask first node ∧ Stable rivalClaim "b" node node' := by
  obtain ⟨events, hr⟩ := (DagRun.start : DagRun 9 pairStore [] _).of_calls untilBothClaimed
  have how : (rivalClaim.before.node "b").map (·.claimedBy) = some (some ⟨5, 5⟩) := by decide
  obtain ⟨node, hn, hon⟩ := Option.map_eq_some_iff.mp how
  have hc : DagCall 9 rivalClaim := .returned _ _
  obtain ⟨⟨first, hf, hs, _⟩, node', _, hst⟩ := live_claim_stable hr hc hn
  exact ⟨events, first, node, node', hr, hn, hon, hf, hs, hst⟩

/-- The parent of `b` is abandoned while the owner of `b` submits it: a claim
by another process blocks `b`, and the owner then marks it submitted. Every
process is alive throughout. -/
theorem live_claim_lost : ∃ events, DagRun 9 pairStore events (pairAfter untilBothClaimed) ∧
      (∀ process, (integratedWorld .abandoned).verdict process = .live) ∧
      ((pairAfter untilBothClaimed).node "b").map (fun node => (node.state, node.claimedBy)) =
        some (.claimed, some ⟨5, 5⟩) ∧
      ((pairAfter (untilBothClaimed ++ [.claim (integratedWorld .abandoned) ⟨6, 6⟩ 3])).node
        "b").map (·.state) = some .blocked ∧
      ((pairAfter (untilBothClaimed ++ [.claim (integratedWorld .abandoned) ⟨6, 6⟩ 3,
        .submitted "b" ⟨2⟩])).node "b").map (·.state) = some .submitted := by
  obtain ⟨events, hr⟩ := (DagRun.start : DagRun 9 pairStore [] _).of_calls untilBothClaimed
  exact ⟨events, hr, fun _ => rfl, by decide, by decide, by decide⟩

end MacWorker.Dag
