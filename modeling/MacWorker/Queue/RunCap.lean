import MacWorker.Queue.Operations

/-! # Runs never exceed their cap

However the operations interleave, and whatever each of them reads, the tasks
of a run that have a dispatching row are at most as many as the cap its rows
declare. Only a claim and a reassignment add to them, and both ask for room
first; what they count includes every dispatching row of another task. -/
namespace MacWorker.Queue
open Fallible Relation List

def dispatchedTasks (taskOf : TurnId → TaskId) (runId : RunId) (queue : QueueSnapshot) :
    Finset TaskId :=
  ((queue.entries.filter fun entry => entry.kind == .taskTurn && entry.state.isDispatching &&
    entry.run.any (·.runId == runId)).map fun entry => taskOf entry.jobId).toFinset

theorem mem_dispatchedTasks {taskOf runId queue t} :
    t ∈ dispatchedTasks taskOf runId queue ↔ ∃ entry ∈ queue.entries,
      entry.kind = .taskTurn ∧ entry.state.isDispatching = true ∧
      (∃ run, entry.run = some run ∧ run.runId = runId) ∧ taskOf entry.jobId = t := by
  simp only [dispatchedTasks, mem_toFinset, mem_map, mem_filter, Bool.and_eq_true,
    beq_iff_eq, Option.any_eq_true]
  constructor
  · intro ⟨entry, ⟨hm, ⟨hk, hs⟩, run, hr, hid⟩, ht⟩
    exact ⟨entry, hm, hk, hs, ⟨run, hr, hid⟩, ht⟩
  · intro ⟨entry, hm, hk, hs, ⟨run, hr, hid⟩, ht⟩
    exact ⟨entry, ⟨hm, ⟨hk, hs⟩, run, hr, hid⟩, ht⟩

def Mapped (world : World) (taskOf : TurnId → TaskId) (queue : QueueSnapshot) : Prop :=
  ∀ entry ∈ queue.entries, entry.kind = .taskTurn →
    world.turnToTask entry.jobId = some (taskOf entry.jobId)

instance (world : World) (taskOf : TurnId → TaskId) (queue : QueueSnapshot) :
    Decidable (Mapped world taskOf queue) :=
  inferInstanceAs (Decidable (∀ entry ∈ queue.entries, entry.kind = .taskTurn →
    world.turnToTask entry.jobId = some (taskOf entry.jobId)))

/-- One operation of a run. New rows of the run declare the cap `m`. -/
def CappedStep (taskOf : TurnId → TaskId) (runId : RunId) (m : Nat)
    (queue queue' : QueueSnapshot) : Prop :=
  ∃ (world : World) (op : QueueOp), Mapped world taskOf queue ∧ op.bypassesAdmission = false ∧
    (∀ draft, op.draft = some draft → ∀ run, draft.run = some run → run.runId = runId →
      run.maxParallel = m) ∧
    op.apply world queue = .ok queue'

/-- The rows of the run declare the cap, and its dispatched tasks keep it. -/
structure WithinCap (taskOf : TurnId → TaskId) (runId : RunId) (m : Nat) (queue : QueueSnapshot) :
    Prop where
  declared : ∀ entry ∈ queue.entries, ∀ run, entry.run = some run → run.runId = runId →
    run.maxParallel = m
  kept : (dispatchedTasks taskOf runId queue).card ≤ m

section
variable {taskOf : TurnId → TaskId} {runId : RunId} {m : Nat} {world : World} {op : QueueOp}
  {queue queue' : QueueSnapshot}

theorem dispatchedTasks_origin {Started : QueueEntry → Prop}
    (hrows : ∀ row' ∈ queue'.entries, (∃ row ∈ queue.entries, row.Revises row') ∨ Started row')
    {t : TaskId} (ht : t ∈ dispatchedTasks taskOf runId queue') :
    t ∈ dispatchedTasks taskOf runId queue ∨ ∃ row' ∈ queue'.entries, Started row' ∧
      row'.kind = .taskTurn ∧ row'.state.isDispatching = true ∧
      (∃ run, row'.run = some run ∧ run.runId = runId) ∧ taskOf row'.jobId = t := by
  obtain ⟨row', hm, hk, hs, hru, hta⟩ := mem_dispatchedTasks.mp ht
  rcases hrows row' hm with ⟨row, hro, hr⟩ | hst
  · refine .inl (mem_dispatchedTasks.mpr ⟨row, hro, ?_, hr.settled hs, ?_, ?_⟩)
    · rw [← hr.same.kind, hk]
    · rwa [← hr.same.run]
    · rw [← hr.same.jobId, hta]
  · exact .inr ⟨row', hm, hst, hk, hs, hru, hta⟩

theorem dispatchedTasks_erase_subset {row run} (hm : Mapped world taskOf queue)
    (hr : row ∈ queue.entries) (hk : row.kind = .taskTurn) (hid : run.runId = runId) :
    (dispatchedTasks taskOf runId queue).erase (taskOf row.jobId) ⊆
      otherTasks world queue run row := by
  intro t ht
  obtain ⟨hne, ht⟩ := Finset.mem_erase.mp ht
  obtain ⟨entry, hme, hk', hs, ⟨run', hr', hid'⟩, rfl⟩ := mem_dispatchedTasks.mp ht
  have hin : inRun run entry = true := by simp [inRun, hr', hid', hid]
  have hh : holdsSlot world entry = true := by simp [holdsSlot, hs]
  refine Finset.mem_filter.mpr ⟨Finset.mem_union_left _ (mem_toFinset.mpr ?_), ?_⟩
  · refine mem_filterMap.mpr ⟨entry, mem_filter.mpr ⟨hme, ?_⟩, hm entry hme hk'⟩
    simp [hin, hh, hk']
  · rw [hm row hr hk, ne_eq, Option.some.injEq]
    exact fun he => hne he.symm

theorem card_insert_le {row run} (hm : Mapped world taskOf queue) (hro : row ∈ queue.entries)
    (hk : row.kind = .taskTurn) (hru : row.run = some run) (hid : run.runId = runId)
    (hr : runHasCapacity world queue row = .ok true) :
    (insert (taskOf row.jobId) (dispatchedTasks taskOf runId queue)).card ≤ run.maxParallel := by
  have hlt := ((runHasCapacity_iff hru).mp hr).2
  rw [eq_comm, decide_eq_true_eq] at hlt
  have hot := Finset.card_le_card (dispatchedTasks_erase_subset hm hro hk hid)
  have hc : (insert (taskOf row.jobId) (dispatchedTasks taskOf runId queue)).card ≤
      ((dispatchedTasks taskOf runId queue).erase (taskOf row.jobId)).card + 1 := by
    rw [← Finset.erase_insert_eq_erase, Finset.card_erase_add_one (Finset.mem_insert_self _ _)]
  omega

section
variable {Started : QueueEntry → Prop}
  (hrows : ∀ row' ∈ queue'.entries, (∃ row ∈ queue.entries, row.Revises row') ∨ Started row')
  (hdeclared : ∀ row', Started row' → ∀ run, row'.run = some run → run.runId = runId →
    run.maxParallel = m)
include hrows hdeclared

theorem WithinCap.declared_of_origin (h : WithinCap taskOf runId m queue) :
    ∀ entry ∈ queue'.entries, ∀ run, entry.run = some run → run.runId = runId →
      run.maxParallel = m := by
  intro entry hen run hr hid
  rcases hrows entry hen with ⟨row, hro, hre⟩ | hs
  · exact h.declared row hro run (hre.same.run ▸ hr) hid
  · exact hdeclared entry hs run hr hid

/-- What starts is not a dispatched turn of this run. -/
theorem WithinCap.of_origin (h : WithinCap taskOf runId m queue)
    (hid : ∀ row', Started row' → row'.kind = .taskTurn → row'.state.isDispatching = true →
      ¬ ∃ run, row'.run = some run ∧ run.runId = runId) : WithinCap taskOf runId m queue' := by
  refine ⟨h.declared_of_origin hrows hdeclared, (Finset.card_le_card fun t ht => ?_).trans h.kept⟩
  rcases dispatchedTasks_origin hrows ht with ht | ⟨row', -, hs, hk, hst, hr, -⟩
  · exact ht
  · exact (hid row' hs hk hst hr).elim

end

/-- The row counts only if it is a turn of this run; then it had room. -/
theorem WithinCap.of_started {row : QueueEntry} (h : WithinCap taskOf runId m queue)
    (hm : Mapped world taskOf queue) (hme : row ∈ queue.entries)
    (hr : runHasCapacity world queue row = .ok true)
    (hrows : ∀ row' ∈ queue'.entries, (∃ r ∈ queue.entries, r.Revises row') ∨ row.SameRow row') :
    WithinCap taskOf runId m queue' := by
  have hdeclared : ∀ row', row.SameRow row' → ∀ run, row'.run = some run → run.runId = runId →
      run.maxParallel = m :=
    fun row' hs run hru hid => h.declared row hme run (hs.run ▸ hru) hid
  by_cases hin : row.kind = .taskTurn ∧ ∃ run, row.run = some run ∧ run.runId = runId
  · obtain ⟨hk, run, hru, hid⟩ := hin
    have hsu : dispatchedTasks taskOf runId queue' ⊆
        insert (taskOf row.jobId) (dispatchedTasks taskOf runId queue) := by
      intro t ht
      rcases dispatchedTasks_origin hrows ht with ht | ⟨row', -, hs, -, -, -, hta⟩
      · exact Finset.mem_insert_of_mem ht
      · rw [← hta, hs.jobId]
        exact Finset.mem_insert_self _ _
    have hc := card_insert_le hm hme hk hru hid hr
    rw [h.declared row hme run hru hid] at hc
    exact ⟨h.declared_of_origin hrows hdeclared, (Finset.card_le_card hsu).trans hc⟩
  · refine h.of_origin hrows hdeclared fun row' hs hk _ hru => ?_
    exact hin ⟨hs.kind ▸ hk, hs.run ▸ hru⟩

/-- **One operation keeps the cap.** -/
theorem WithinCap.step (h : WithinCap taskOf runId m queue)
    (hst : CappedStep taskOf runId m queue queue') : WithinCap taskOf runId m queue' := by
  obtain ⟨world, op, hm, ha, hd, hap⟩ := hst
  have hca : (∀ row' ∈ queue'.entries, ∃ r ∈ queue.entries, r.Revises row') →
      WithinCap taskOf runId m queue' := fun hor =>
    h.of_origin (fun row' hr' => .inl (hor row' hr')) (fun _ hf => False.elim hf)
      fun _ hf => False.elim hf
  cases (op.apply_applied hap).edit with
  | revised hr => exact hca hr.origin
  | removed position _ published =>
    refine hca fun row' hr' => ⟨row', ?_, .refl row'⟩
    rw [published] at hr'
    exact mem_of_mem_removed position hr'
  | @appended draft row offered published id waiting job run kind time =>
    have hor : ∀ row' ∈ queue'.entries, (∃ r ∈ queue.entries, r.Revises row') ∨ row' = row := by
      intro row' hr'
      have hme : row' ∈ queue.entries ∨ row' = row := by simpa [published] using hr'
      exact hme.imp_left fun hol => ⟨row', hol, .refl row'⟩
    refine h.of_origin hor ?_ ?_
    · rintro row' rfl r hr hid
      exact hd draft offered r (run ▸ hr) hid
    · rintro row' rfl - hs
      rw [waiting] at hs
      cases hs
  | started hme hro place hrows => exact h.of_started hm hme hro hrows
  | resumed hop => rw [ha] at hop; cases hop
  | restored hop => rw [ha] at hop; cases hop

end

/-- **A run never has more dispatched tasks than its cap.** From the empty
queue, through any sequence of operations that ask for admission, as long as
the run's rows declare one cap and every queued turn is mapped to its task. -/
theorem runCap_kept {taskOf : TurnId → TaskId} {runId : RunId} {m : Nat} {queue : QueueSnapshot}
    (hrun : ReflTransGen (CappedStep taskOf runId m) QueueSnapshot.empty queue) :
    (dispatchedTasks taskOf runId queue).card ≤ m := by
  have hem : WithinCap taskOf runId m QueueSnapshot.empty :=
    ⟨fun entry hen => absurd hen not_mem_nil, Nat.zero_le m⟩
  exact (Reach.invariant (fun _ _ h hs => h.step hs) hem hrun).kept

/-- One turn is queued and claimed, and its run is full. -/
theorem runCap_kept_claim : ∃ queue : QueueSnapshot,
    dispatchedTasks (fun _ => ⟨1⟩) singleFile.runId queue = {⟨1⟩} ∧
    (dispatchedTasks (fun _ => ⟨1⟩) singleFile.runId queue).card ≤ 1 := by
  let world := followUpWorld [activeTask ⟨1⟩ 5 ⟨1⟩]
  let queued : QueueSnapshot := ⟨2, [.sample 1 ⟨1⟩ ⟨1, 1⟩ (.waiting ⟨1, 1⟩) 3 (some singleFile)]⟩
  let claimed : QueueSnapshot :=
    ⟨2, [.sample 1 ⟨1⟩ ⟨1, 1⟩ (.dispatching ⟨1, 1⟩ "mini" 5) 3 (some singleFile)]⟩
  have hen : CappedStep (fun _ => ⟨1⟩) singleFile.runId 1 QueueSnapshot.empty queued := by
    refine ⟨world, .enqueue (.sample ⟨1⟩ ⟨1, 1⟩ 3 (some singleFile)), fun _ h =>
      absurd h not_mem_nil, rfl, ?_,
      by decide⟩
    intro draft hd run hr _
    cases hd
    cases hr
    rfl
  have hc : CappedStep (fun _ => ⟨1⟩) singleFile.runId 1 queued claimed := by
    refine ⟨world, .claimNextMatching ⟨1, 1⟩ ["mini"] 5 none none, by decide, rfl, nofun, by decide⟩
  exact ⟨claimed, by decide, runCap_kept (.tail (.single hen) hc)⟩

end MacWorker.Queue
