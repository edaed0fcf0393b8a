import MacWorker.Dag.Progress

/-! # The index of pending graphs

A restarted process finds the batches that are not over through an index, one entry for each
run, and reads no other graph. The index is a second file beside the graph: it is written
before the graph is created and after it is changed, and every call can die between its
writes. -/
namespace MacWorker.Dag
open Std (TreeMap)
open Fallible Relation

/-! ## The calls that write a run -/

def DagRecord.same (dag other : DagRecord) : Bool :=
  dag.version == other.version && dag.runId == other.runId &&
    dag.maxParallel == other.maxParallel && dag.name == other.name &&
    dag.createdAtMillis == other.createdAtMillis && dag.nodes.toList == other.nodes.toList

def runConflict : WorkerError :=
  .queue "RUN_ID_CONFLICT" "run ID is already present with different metadata"

def checkRunDag (run : RunRecord) (dag : DagRecord) : Except WorkerError Unit := do
  ensure (run.runId = dag.runId) (configInvalid "DAG run_id must match the run record")
  ensure (run.maxParallel = dag.maxParallel)
    (configInvalid "DAG max_parallel must match the run record")
  ensure (run.name = dag.name) (configInvalid "DAG name must match the run record")
  ensure (run.createdAtMillis = dag.createdAtMillis)
    (configInvalid "DAG created_at_millis must match the run record")
  dag.validate

/-- A run is written once; writing the same one again is accepted. -/
def createRun (run : RunRecord) (store : DagStore) : Except WorkerError Unit × List DagWrite :=
  match store.run with
  | none => (.ok (), [.run run])
  | some existing => (if existing = run then .ok () else .error runConflict, [])

def createDag (dag : DagRecord) (store : DagStore) : Except WorkerError (List DagWrite) := do
  match ← store.loadRunDag dag.runId with
  | none => pure [.dag dag]
  | some existing => if existing.same dag then pure [] else .error runConflict

def registerPendingDag (dag : DagRecord) : List DagWrite :=
  if dagRunIsQuiescent dag then [] else [.pending true]

def createRunWithDag (run : RunRecord) (dag : DagRecord) (store : DagStore) :
    Except WorkerError Unit × List DagWrite :=
  match checkRunDag run dag with
  | .error e => (.error e, [])
  | .ok () =>
    match createDag dag store with
    | .error e => (.error e, registerPendingDag dag)
    | .ok writes =>
      let created := createRun run store
      (created.1, registerPendingDag dag ++ writes ++ created.2)

/-- The index of an older store is completed once: every graph gets its run and its entry. -/
def bootstrapDagPendingIndex (runId : Uuid) (store : DagStore) :
    Except WorkerError Unit × List DagWrite :=
  match store.loadRunDag runId with
  | .error e => (.error e, [])
  | .ok none => (.ok (), [])
  | .ok (some dag) =>
    match completeUnpublishedDagRun dag store.run with
    | .error e => (.error e, [])
    | .ok (_, writes) => (.ok (), writes)

inductive BatchOp where
  | createRun (run : RunRecord)
  | createRunWithDag (run : RunRecord) (dag : DagRecord)
  | call (op : DagOp)
  | bootstrap

def BatchOp.writes (runId : Uuid) (store : DagStore) : BatchOp → List DagWrite
  | .createRun run => (Dag.createRun run store).2
  | .createRunWithDag run dag => (Dag.createRunWithDag run dag store).2
  | .call op => (op.run runId store).2
  | .bootstrap => (bootstrapDagPendingIndex runId store).2

/-! ## Writes that keep the index complete -/

def DagStore.Indexed (store : DagStore) : Prop :=
  ∀ dag, store.dag = some dag → dagRunIsQuiescent dag = false → store.pending = true

inductive Covered (store : DagStore) : DagWrite → Prop
  | run (record : RunRecord) : Covered store (.run record)
  | dag (record : DagRecord) (entry : dagRunIsQuiescent record = false → store.pending = true) :
      Covered store (.dag record)
  | register : Covered store (.pending true)
  | retire {dag : DagRecord} (stored : store.dag = some dag)
      (ended : dagRunIsQuiescent dag = true) : Covered store (.pending false)

/-- Each write is covered by those before it. -/
def AllCovered : DagStore → List DagWrite → Prop
  | _, [] => True
  | store, write :: rest => Covered store write ∧ AllCovered (store.write write) rest

section
variable {store : DagStore} {writes : List DagWrite} {dag dag' : DagRecord}

theorem Covered.indexed {write} (hc : Covered store write) (h : store.Indexed) :
    (store.write write).Indexed := by
  intro dag hd hop
  cases hc with
  | run record => exact h dag hd hop
  | dag record entry =>
    cases hd
    exact entry hop
  | register => rfl
  | retire stored ended =>
    cases stored.symm.trans hd
    rw [ended] at hop
    cases hop

theorem allCovered_append (first second : List DagWrite) : AllCovered store (first ++ second) ↔
      AllCovered store first ∧ AllCovered (store.writeAll first) second := by
  induction first generalizing store with
  | nil => simp [AllCovered, DagStore.writeAll]
  | cons write rest ih =>
    simp only [List.cons_append, AllCovered, ih, and_assoc]
    rfl

theorem AllCovered.indexed (hc : AllCovered store writes) (h : store.Indexed) :
    (store.writeAll writes).Indexed := by
  induction writes generalizing store with
  | nil => exact h
  | cons write rest ih => exact ih hc.2 (hc.1.indexed h)

theorem covered_sync (hd : store.dag = some dag) : Covered store (syncPendingDag dag) := by
  unfold syncPendingDag
  cases hov : dagRunIsQuiescent dag with
  | true => exact .retire hd hov
  | false => exact .register

theorem AllBeside.covered (h : AllBeside store.dag writes) : AllCovered store writes := by
  induction writes generalizing store with
  | nil => trivial
  | cons write rest ih =>
    have hr : AllBeside store.dag rest := fun other hot => h other (List.mem_cons_of_mem _ hot)
    cases h write List.mem_cons_self with
    | run record => exact ⟨.run record, ih hr⟩
    | entry hd => exact ⟨covered_sync hd, ih hr⟩

theorem Moved.quiescent {op} (h : Moved op dag dag') (hov : dagRunIsQuiescent dag = true) :
    dagRunIsQuiescent dag' = true := by
  rw [quiescent_iff] at hov ⊢
  intro id node' hn'
  cases hn : dag.nodes[id]? with
  | none =>
    rw [h.absent id hn] at hn'
    cases hn'
  | some node =>
    obtain ⟨found, hf, hc⟩ := h.present id node hn
    cases hf.symm.trans hn'
    have hs := hov id node hn
    cases hc with
    | kept => exact hs
    | scanned hop hv hg hst =>
      rw [hst.settled_stays hs]
      exact hs
    | bound hop canonical => exact hs
    | submitted hop => rfl

theorem Wrote.covered {op} (h : store.Indexed) (hd : store.dag = some dag)
    (hm : Moved op dag dag') (hw : Wrote dag dag' writes) : AllCovered store writes := by
  cases hw with
  | kept hb => exact AllBeside.covered (hd ▸ hb)
  | stored hb =>
    have hc : AllCovered store _ := AllBeside.covered (hd ▸ hb)
    refine (allCovered_append _ _).mpr ⟨hc, .dag dag' fun hop => ?_, covered_sync rfl, trivial⟩
    refine hc.indexed h dag ((Wrote.kept hb).dag_eq hd) ?_
    cases hov : dagRunIsQuiescent dag with
    | false => rfl
    | true =>
      rw [hm.quiescent hov] at hop
      exact hop

end

/-! ## Every call keeps it -/

section
variable {store : DagStore} {runId : Uuid} {dag : DagRecord} {writes : List DagWrite}

theorem DagOp.covered (op : DagOp) (h : store.Indexed) :
    AllCovered store (op.run runId store).2 := by
  cases hd : store.dag with
  | none =>
    rw [(run_without_dag hd runId).1]
    trivial
  | some dag =>
    obtain ⟨dag', hw, hm⟩ := run_effect op runId hd
    exact hw.covered h hd hm

theorem createRun_covered (run : RunRecord) {writer : DagStore} :
    AllCovered store (createRun run writer).2 := by
  unfold createRun
  split
  · exact ⟨.run run, trivial⟩
  · trivial

theorem registerPendingDag_covered (dag : DagRecord) : AllCovered store (registerPendingDag dag) ∧
      (dagRunIsQuiescent dag = false →
        (store.writeAll (registerPendingDag dag)).pending = true) := by
  unfold registerPendingDag
  cases dagRunIsQuiescent dag with
  | true => exact ⟨trivial, fun h => by cases h⟩
  | false => exact ⟨⟨.register, trivial⟩, fun _ => rfl⟩

theorem createRunWithDag_covered (run : RunRecord) (dag : DagRecord) :
    AllCovered store (createRunWithDag run dag store).2 := by
  obtain ⟨hr, hen⟩ := @registerPendingDag_covered store dag
  unfold createRunWithDag
  split
  · trivial
  · split
    · exact hr
    · rename_i writes hc
      refine (allCovered_append _ _).mpr
        ⟨(allCovered_append _ _).mpr ⟨hr, ?_⟩, createRun_covered run⟩
      unfold createDag at hc
      obtain ⟨found, -, hc⟩ := of_bind hc
      cases found with
      | none =>
        cases hc
        exact ⟨.dag dag hen, trivial⟩
      | some existing =>
        dsimp only at hc
        obtain ⟨-, hc⟩ := of_if hc
        cases hc
        trivial

theorem bootstrap_covered : AllCovered store (bootstrapDagPendingIndex runId store).2 := by
  unfold bootstrapDagPendingIndex
  split
  · trivial
  · trivial
  · rename_i dag hl
    obtain ⟨hf, -⟩ := loadRunDag_ok hl
    split
    · trivial
    · rename_i run writes hr
      exact AllBeside.covered (hf ▸ completeUnpublishedDagRun_beside hr)

theorem BatchOp.covered (op : BatchOp) (runId : Uuid) (h : store.Indexed) :
    AllCovered store (op.writes runId store) := by
  cases op with
  | createRun run => exact createRun_covered run
  | createRunWithDag run dag => exact createRunWithDag_covered run dag
  | call op => exact op.covered h
  | bootstrap => exact bootstrap_covered

end

/-! ## Runs -/

abbrev Batches : Type := Uuid → DagStore

def Batches.empty : Batches := fun _ => ⟨none, none, false⟩

/-- A call returns, or its process dies after some of its writes. Calls hold the state lock, so
no other write comes between. -/
inductive Batches.Step : Batches → Batches → Prop
  | wrote {batches : Batches} (runId : Uuid) (op : BatchOp) {kept : List DagWrite}
      (prefixed : kept <+: op.writes runId (batches runId)) :
      Batches.Step batches (Function.update batches runId ((batches runId).writeAll kept))

theorem Batches.Step.indexed {batches batches'} (hs : Batches.Step batches batches')
    (h : ∀ runId, (batches runId).Indexed) : ∀ runId, (batches' runId).Indexed := by
  cases hs with
  | wrote target op prefixed =>
    intro runId
    by_cases ht : runId = target
    · subst ht
      obtain ⟨rest, hw⟩ := prefixed
      have hc := op.covered runId (h runId)
      rw [← hw, allCovered_append] at hc
      rw [Function.update_self]
      exact hc.1.indexed (h runId)
    · rw [Function.update_of_ne ht]
      exact h runId

/-- **No unfinished batch is forgotten.** Wherever the calls of a run have died, each stored
graph that is not over has its entry; and the write that removes an entry finds a stored graph
that is over. -/
theorem no_batch_forgotten {batches : Batches}
    (hrun : ReflTransGen Batches.Step Batches.empty batches) :
    (∀ runId dag, (batches runId).dag = some dag → dagRunIsQuiescent dag = false →
      (batches runId).pending = true) ∧
    ∀ runId (op : BatchOp) kept write rest,
      op.writes runId (batches runId) = kept ++ write :: rest →
      ((batches runId).writeAll kept).pending = true →
      (((batches runId).writeAll kept).write write).pending = false →
      ∃ dag, ((batches runId).writeAll kept).dag = some dag ∧ dagRunIsQuiescent dag = true := by
  have hin : ∀ runId, (batches runId).Indexed := by
    refine Reach.invariant (fun _ _ h hs => hs.indexed h) (fun runId => ?_) hrun
    intro dag hd
    cases hd
  refine ⟨hin, fun runId op kept write rest hw hen hr => ?_⟩
  have hc := op.covered runId (hin runId)
  rw [hw, allCovered_append] at hc
  cases hc.2.1 with
  | run record =>
    rw [show (((batches runId).writeAll kept).write (.run record)).pending =
      ((batches runId).writeAll kept).pending from rfl, hen] at hr
    cases hr
  | dag record entry =>
    rw [show (((batches runId).writeAll kept).write (.dag record)).pending =
      ((batches runId).writeAll kept).pending from rfl, hen] at hr
    cases hr
  | register => cases hr
  | retire stored ended => exact ⟨_, stored, ended⟩

/-- The process dies between the graph of a new batch and its run. -/
theorem no_batch_forgotten_pair : ∃ batches, ReflTransGen Batches.Step Batches.empty batches ∧
      (batches 9).dag = some pairGraph ∧ (batches 9).run = none ∧ (batches 9).pending = true := by
  let run : RunRecord := ⟨9, none, [], 1, 0⟩
  have hc : checkRunDag run pairGraph = .ok () := by decide
  have hop : dagRunIsQuiescent pairGraph = false := by decide
  have hw : (BatchOp.createRunWithDag run pairGraph).writes 9 (Batches.empty 9) =
      [.pending true, .dag pairGraph, .run run] := by
    have hcr : createDag pairGraph (Batches.empty 9) = .ok [.dag pairGraph] := rfl
    simp only [BatchOp.writes, createRunWithDag, hc, hcr, registerPendingDag, hop]
    rfl
  have hk : [.pending true, .dag pairGraph] <+:
      (BatchOp.createRunWithDag run pairGraph).writes 9 (Batches.empty 9) :=
    ⟨[.run run], hw.symm⟩
  have hr := ReflTransGen.single (Batches.Step.wrote 9 _ hk)
  exact ⟨_, hr, rfl, rfl, (no_batch_forgotten hr).1 9 pairGraph rfl hop⟩

end MacWorker.Dag
