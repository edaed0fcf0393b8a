import Mathlib.Data.Finset.Card
import MacWorker.Queue.World

/-! # Room in a run

A run declares how many of its tasks may hold a slot at once. A slot is held by a
dispatching row, by a row whose job record is accepted or running, and by a task that is
locally active; the row that asks is not charged for its own task. `runHasCapacity_iff`
states the answer as the size of one set per run (`runTasks`), without the asking row's
task. -/
namespace MacWorker.Queue
open Fallible List

structure Occupied where
  tasks : Finset TaskId
  jobs : Finset JobId

def Occupied.empty : Occupied := ⟨∅, ∅⟩

def occupy (world : World) (candidate sibling : QueueEntry) (occupied : Occupied) : Occupied :=
  match sibling.kind with
  | .taskTurn =>
    match world.turnToTask sibling.jobId with
    | some taskId =>
      if world.turnToTask candidate.jobId ≠ some taskId then
        { occupied with tasks := insert taskId occupied.tasks }
      else occupied
    | none =>
      if candidate.jobId ≠ sibling.jobId then
        { occupied with jobs := insert sibling.jobId occupied.jobs }
      else occupied
  | .batch =>
    -- Retired batch rows count only against each other.
    if candidate.kind = .batch then
      { occupied with jobs := insert sibling.jobId occupied.jobs }
    else occupied

def LocalJobRecord.isRunning (record : LocalJobRecord) : Bool :=
  record.lastState == some .accepted || record.lastState == some .running

def occupySibling (world : World) (candidate : QueueEntry) (occupied : Occupied)
    (sibling : QueueEntry) : Except WorkerError Occupied :=
  let occupied :=
    if sibling.state.isDispatching then occupy world candidate sibling occupied else occupied
  match world.job sibling.jobId with
  | none => .ok occupied
  | some record => do
    world.requireLocalClient record
    ensure (localRecordMatchesQueueEntry sibling record = true)
      (.queue "QUEUE_JOB_RECORD_MISMATCH" "local run job metadata does not match its queue row")
    return if record.isRunning then occupy world candidate sibling occupied else occupied

def activeInRun (run : QueueRunReference) (task : LocalTaskRecord) : Bool :=
  task.info.runId.any (fun runId => simple runId == run.runId.value) && task.status.state == .active

def occupyActive (world : World) (candidate : QueueEntry) (run : QueueRunReference)
    (occupied : Occupied) (task : LocalTaskRecord) : Occupied :=
  if activeInRun run task ∧ world.turnToTask candidate.jobId ≠ some task.info.taskId then
    { occupied with tasks := insert task.info.taskId occupied.tasks }
  else occupied

def inRun (run : QueueRunReference) (entry : QueueEntry) : Bool :=
  entry.run.any fun other => other.runId == run.runId

def runHasCapacity (world : World) (queue : QueueSnapshot) (candidate : QueueEntry) :
    Except WorkerError Bool :=
  match candidate.run with
  | none => .ok true
  | some run => do
    let occupied ← (queue.entries.filter (inRun run)).foldlM (occupySibling world candidate)
      Occupied.empty
    let occupied := world.occupancyTasks.foldl (occupyActive world candidate run) occupied
    return decide (occupied.tasks.card + occupied.jobs.card < run.maxParallel)

/-! ## The slots of a run -/

/-- The row holds a slot of its run: it is dispatching, or its job runs. -/
def holdsSlot (world : World) (entry : QueueEntry) : Bool :=
  entry.state.isDispatching || (world.job entry.jobId).any (·.isRunning)

def runTasks (world : World) (queue : QueueSnapshot) (run : QueueRunReference) : Finset TaskId :=
  ((queue.entries.filter fun e => inRun run e && holdsSlot world e && e.kind == .taskTurn).filterMap
    fun e => world.turnToTask e.jobId).toFinset ∪
  ((world.occupancyTasks.filter (activeInRun run)).map (·.info.taskId)).toFinset

def chargedAsJob (world : World) (candidate sibling : QueueEntry) : Bool :=
  match sibling.kind with
  | .taskTurn => (world.turnToTask sibling.jobId).isNone && candidate.jobId != sibling.jobId
  | .batch => candidate.kind == .batch

/-- The jobs that hold a slot of `run` against `candidate`, no task being known for them. -/
def runJobs (world : World) (queue : QueueSnapshot) (run : QueueRunReference)
    (candidate : QueueEntry) : Finset JobId :=
  ((queue.entries.filter fun e => inRun run e && holdsSlot world e &&
    chargedAsJob world candidate e).map (·.jobId)).toFinset

/-- Every job record kept for a row of the run belongs to this client and describes the row. -/
def RecordsMatch (world : World) (queue : QueueSnapshot) (run : QueueRunReference) : Prop :=
  ∀ entry ∈ queue.entries, inRun run entry = true → ∀ record, world.job entry.jobId = some record →
    record.clientId = world.clientId ∧ localRecordMatchesQueueEntry entry record = true

section
variable {world : World} {candidate sibling : QueueEntry} {occupied : Occupied}

theorem mem_occupy_tasks {t} : t ∈ (occupy world candidate sibling occupied).tasks ↔
    t ∈ occupied.tasks ∨ (sibling.kind = .taskTurn ∧ world.turnToTask sibling.jobId = some t ∧
      world.turnToTask candidate.jobId ≠ some t) := by
  unfold occupy
  cases hk : sibling.kind with
  | batch => by_cases hc : candidate.kind = .batch <;> simp [hc]
  | taskTurn =>
    cases hs : world.turnToTask sibling.jobId with
    | none => by_cases hj : candidate.jobId = sibling.jobId <;> simp [hj]
    | some u =>
      by_cases hu : world.turnToTask candidate.jobId = some u
      · simp [hu]
      · simp only [ne_eq, hu, not_false_eq_true, if_true, Finset.mem_insert, Option.some.injEq,
          true_and]
        refine ⟨fun h => ?_, fun h => ?_⟩
        · rcases h with rfl | h
          · exact .inr ⟨rfl, hu⟩
          · exact .inl h
        · rcases h with h | ⟨rfl, _⟩
          · exact .inr h
          · exact .inl rfl

theorem mem_occupy_jobs {j} : j ∈ (occupy world candidate sibling occupied).jobs ↔
    j ∈ occupied.jobs ∨ (chargedAsJob world candidate sibling = true ∧ j = sibling.jobId) := by
  unfold occupy chargedAsJob
  cases hk : sibling.kind with
  | batch =>
    by_cases hc : candidate.kind = .batch <;> simp [hc, or_comm]
  | taskTurn =>
    cases hs : world.turnToTask sibling.jobId with
    | none => by_cases hj : candidate.jobId = sibling.jobId <;> simp [hj, or_comm]
    | some u => by_cases hu : world.turnToTask candidate.jobId = some u <;> simp [hu]

theorem occupy_idem : occupy world candidate sibling (occupy world candidate sibling occupied) =
      occupy world candidate sibling occupied := by
  have ht : ∀ o : Occupied, ∀ o' : Occupied, o.tasks = o'.tasks → o.jobs = o'.jobs → o = o' :=
    fun ⟨_, _⟩ ⟨_, _⟩ h1 h2 => by cases h1; cases h2; rfl
  refine ht _ _ (Finset.ext fun t => ?_) (Finset.ext fun j => ?_)
  · simp only [mem_occupy_tasks, or_assoc, or_self]
  · simp only [mem_occupy_jobs, or_assoc, or_self]

/-- One turn of the sibling loop without its failures. -/
def charge (world : World) (candidate : QueueEntry) (occupied : Occupied) (sibling : QueueEntry) :
    Occupied :=
  if holdsSlot world sibling then occupy world candidate sibling occupied else occupied

theorem occupySibling_eq_ok {occupied'} :
    occupySibling world candidate occupied sibling = .ok occupied' ↔
      (∀ record, world.job sibling.jobId = some record →
        record.clientId = world.clientId ∧ localRecordMatchesQueueEntry sibling record = true) ∧
      occupied' = charge world candidate occupied sibling := by
  unfold occupySibling charge holdsSlot
  cases hj : world.job sibling.jobId with
  | none =>
    simp only [reduceCtorEq, false_imp_iff, implies_true, true_and, Option.any_none, Bool.or_false]
    exact ⟨fun h => (Except.ok.inj h).symm, fun h => congrArg Except.ok h.symm⟩
  | some record =>
    simp only [then_eq_ok, World.requireLocalClient, ensure_eq_ok, pure_eq_ok,
      Option.some.injEq, forall_eq', Option.any_some, and_assoc]
    refine and_congr_right fun _ => and_congr_right fun _ => ?_
    rw [eq_comm]
    by_cases hd : sibling.state.isDispatching = true <;>
      by_cases hr : record.isRunning = true <;> simp [hd, hr, occupy_idem]

theorem mem_charges_tasks {t : TaskId} {siblings : List QueueEntry} :
    t ∈ (siblings.foldl (charge world candidate) occupied).tasks ↔
      t ∈ occupied.tasks ∨ ∃ s ∈ siblings, holdsSlot world s = true ∧ s.kind = .taskTurn ∧
        world.turnToTask s.jobId = some t ∧ world.turnToTask candidate.jobId ≠ some t := by
  refine foldl_iff (p := fun o : Occupied => t ∈ o.tasks) fun o s => ?_
  unfold charge
  cases hs : holdsSlot world s <;> simp [mem_occupy_tasks]

theorem mem_charges_jobs {j : JobId} {siblings : List QueueEntry} :
    j ∈ (siblings.foldl (charge world candidate) occupied).jobs ↔
      j ∈ occupied.jobs ∨ ∃ s ∈ siblings, holdsSlot world s = true ∧
        chargedAsJob world candidate s = true ∧ j = s.jobId := by
  refine foldl_iff (p := fun o : Occupied => j ∈ o.jobs) fun o s => ?_
  unfold charge
  cases hs : holdsSlot world s <;> simp [mem_occupy_jobs]

theorem mem_active_tasks {run : QueueRunReference} {t : TaskId} {tasks : List LocalTaskRecord} :
    t ∈ (tasks.foldl (occupyActive world candidate run) occupied).tasks ↔
      t ∈ occupied.tasks ∨ ∃ task ∈ tasks, activeInRun run task = true ∧ task.info.taskId = t ∧
        world.turnToTask candidate.jobId ≠ some t := by
  refine foldl_iff (p := fun o : Occupied => t ∈ o.tasks) fun o task => ?_
  unfold occupyActive
  split
  · rename_i h
    rw [Finset.mem_insert]
    refine ⟨fun ht => ?_, fun ht => ?_⟩
    · rcases ht with rfl | ht
      · exact .inr ⟨h.1, rfl, h.2⟩
      · exact .inl ht
    · rcases ht with ht | ⟨-, rfl, -⟩
      · exact .inr ht
      · exact .inl rfl
  · rename_i h
    refine ⟨.inl, fun ht => ?_⟩
    rcases ht with ht | ⟨ha, rfl, hne⟩
    · exact ht
    · exact absurd ⟨ha, hne⟩ h

theorem active_jobs {run : QueueRunReference} {tasks : List LocalTaskRecord} :
    ∀ {occupied : Occupied},
      (tasks.foldl (occupyActive world candidate run) occupied).jobs = occupied.jobs := by
  induction tasks with
  | nil => intro; rfl
  | cons task rest ih =>
    intro occupied
    rw [foldl_cons, ih]
    unfold occupyActive
    split <;> rfl

end

/-! ## The answer -/

def otherTasks (world : World) (queue : QueueSnapshot) (run : QueueRunReference)
    (candidate : QueueEntry) : Finset TaskId :=
  (runTasks world queue run).filter fun t => world.turnToTask candidate.jobId ≠ some t

section
variable {world : World} {queue : QueueSnapshot} {candidate : QueueEntry} {run : QueueRunReference}

/-- What both loops leave behind when no record fails. -/
def charges (world : World) (queue : QueueSnapshot) (run : QueueRunReference)
    (candidate : QueueEntry) : Occupied :=
  world.occupancyTasks.foldl (occupyActive world candidate run)
    ((queue.entries.filter (inRun run)).foldl (charge world candidate) Occupied.empty)

theorem charges_tasks :
    (charges world queue run candidate).tasks = otherTasks world queue run candidate := by
  ext t
  simp only [charges, mem_active_tasks, mem_charges_tasks, otherTasks, runTasks, Occupied.empty,
    mem_filter, mem_filterMap, mem_map, Finset.mem_filter, Finset.mem_union,
    mem_toFinset, Bool.and_eq_true, beq_iff_eq]
  grind

theorem charges_jobs :
    (charges world queue run candidate).jobs = runJobs world queue run candidate := by
  ext j
  simp only [charges, active_jobs, mem_charges_jobs, runJobs, Occupied.empty, mem_filter,
    mem_map, mem_toFinset, Bool.and_eq_true]
  grind

/-- **The capacity test counts the run's other slots.** It fails only on a job
record that does not describe its row; otherwise it compares the tasks of the
run other than the row's own, and the jobs without a task, with the cap. -/
theorem runHasCapacity_iff (hr : candidate.run = some run) {b} :
    runHasCapacity world queue candidate = .ok b ↔ RecordsMatch world queue run ∧
      b = decide ((otherTasks world queue run candidate).card +
        (runJobs world queue run candidate).card < run.maxParallel) := by
  have hl : ∀ occupied, (queue.entries.filter (inRun run)).foldlM
      (occupySibling world candidate) Occupied.empty = .ok occupied ↔
        RecordsMatch world queue run ∧ occupied =
          (queue.entries.filter (inRun run)).foldl (charge world candidate) Occupied.empty := by
    intro occupied
    rw [foldlM_eq_ok (f := occupySibling world candidate) (g := charge world candidate)
      fun _ _ _ => occupySibling_eq_ok]
    simp only [RecordsMatch, mem_filter, and_imp]
  unfold runHasCapacity
  simp only [hr, bind_eq_ok, pure_eq_ok, hl]
  rw [← charges_tasks, ← charges_jobs, charges]
  constructor
  · rintro ⟨_, ⟨hm, rfl⟩, hb⟩
    exact ⟨hm, hb.symm⟩
  · rintro ⟨hm, hb⟩
    exact ⟨_, ⟨hm, rfl⟩, hb.symm⟩

end

/-! ## Follow-up turns waiting on each other -/

def activeTasks (world : World) (run : QueueRunReference) : Finset TaskId :=
  ((world.occupancyTasks.filter (activeInRun run)).map (·.info.taskId)).toFinset

/-- The turn is one of the task's, by directory or by history. -/
def OwnsTurn (world : World) (task : LocalTaskRecord) (turn : TurnId) : Prop :=
  turn ∈ world.turnIds task.info.taskId ∨ turn ∈ task.status.turns.map (·.turnId)

structure WaitsIn (run : QueueRunReference) (entry : QueueEntry) : Prop where
  run : inRun run entry = true
  kind : entry.kind = .taskTurn
  state : entry.state.isWaiting = true

/-- Nothing of the run has been dispatched and every active task has its next
turn in the queue. -/
structure FollowUpsQueued (world : World) (queue : QueueSnapshot) (run : QueueRunReference) :
    Prop where
  idle : ∀ entry ∈ queue.entries, inRun run entry = true → entry.kind = .taskTurn →
    entry.state.isDispatching = false
  noJob : ∀ entry ∈ queue.entries, inRun run entry = true → ∀ record,
    world.job entry.jobId = some record → record.isRunning = false
  queued : ∀ task ∈ world.occupancyTasks, activeInRun run task = true →
    ∃ entry ∈ queue.entries, WaitsIn run entry ∧ entry.isCancelRequested = false ∧
      OwnsTurn world task entry.jobId

section
variable {world : World} {queue : QueueSnapshot} {run : QueueRunReference}

theorem run_eq_of_inRun (hq : queue.WellFormed) (hru : ∃ e ∈ queue.entries, e.run = some run)
    {entry} (he : entry ∈ queue.entries) (hin : inRun run entry = true) :
    entry.run = some run := by
  obtain ⟨row, hro, hr⟩ := hru
  unfold inRun at hin
  cases hs : entry.run with
  | none => rw [hs] at hin; cases hin
  | some other =>
    have hid : other.runId = run.runId := by simpa [hs] using hin
    have hc : other.maxParallel = run.maxParallel := queue_caps hq he hro hs hr hid
    cases other
    cases run
    simp_all

section
variable (h : FollowUpsQueued world queue run)
include h

theorem holdsSlot_eq_false {entry}
    (he : entry ∈ queue.entries) (hin : inRun run entry = true) (hk : entry.kind = .taskTurn) :
    holdsSlot world entry = false := by
  unfold holdsSlot
  rw [h.idle entry he hin hk, Bool.false_or]
  cases hj : world.job entry.jobId with
  | none => rfl
  | some record => exact h.noJob entry he hin record hj

theorem runTasks_eq_activeTasks : runTasks world queue run = activeTasks world run := by
  have hn : (queue.entries.filter fun e => inRun run e && holdsSlot world e &&
      e.kind == .taskTurn) = [] := by
    refine filter_eq_nil_iff.mpr fun e he hp => ?_
    simp only [Bool.and_eq_true, beq_iff_eq] at hp
    rw [holdsSlot_eq_false h he hp.1.1 hp.2] at hp
    exact Bool.false_ne_true hp.1.2
  unfold runTasks activeTasks
  rw [hn]
  simp

theorem runJobs_eq_empty {candidate}
    (hk : candidate.kind = .taskTurn) : runJobs world queue run candidate = ∅ := by
  have hn : (queue.entries.filter fun e => inRun run e && holdsSlot world e &&
      chargedAsJob world candidate e) = [] := by
    refine filter_eq_nil_iff.mpr fun e he hp => ?_
    simp only [Bool.and_eq_true] at hp
    cases hki : e.kind with
    | taskTurn =>
      rw [holdsSlot_eq_false h he hp.1.1 hki] at hp
      exact Bool.false_ne_true hp.1.2
    | batch =>
      have hc := hp.2
      simp [chargedAsJob, hki, hk] at hc
  unfold runJobs
  rw [hn]
  rfl

theorem waiting_capacity_iff (hq : queue.WellFormed) (hr : ∃ e ∈ queue.entries, e.run = some run)
    {entry} (he : entry ∈ queue.entries)
    (hw : WaitsIn run entry) : runHasCapacity world queue entry = .ok true ↔
      RecordsMatch world queue run ∧
      ((activeTasks world run).filter fun t => world.turnToTask entry.jobId ≠ some t).card <
        run.maxParallel := by
  rw [runHasCapacity_iff (run_eq_of_inRun hq hr he hw.run), otherTasks,
    runTasks_eq_activeTasks h, runJobs_eq_empty h hw.kind]
  simp

end

theorem card_filter_ne_lt_iff (tasks : Finset TaskId) (own : Option TaskId) (m : Nat) :
    (tasks.filter fun t => own ≠ some t).card < m ↔
      tasks.card < m ∨ (tasks.card = m ∧ ∃ t ∈ tasks, own = some t) := by
  by_cases h : ∃ t ∈ tasks, own = some t
  · obtain ⟨t, ht, rfl⟩ := h
    have hf : (tasks.filter fun u => some t ≠ some u) = tasks.erase t := by
      ext u
      simp only [ne_eq, Option.some.injEq, Finset.mem_filter, Finset.mem_erase]
      exact ⟨fun ⟨hu, hne⟩ => ⟨fun he => hne he.symm, hu⟩, fun ⟨hne, hu⟩ =>
        ⟨hu, fun he => hne he.symm⟩⟩
    have hp := Finset.card_pos.mpr ⟨t, ht⟩
    rw [hf, Finset.card_erase_of_mem ht]
    have hex : ∃ u ∈ tasks, some t = some u := ⟨t, ht, rfl⟩
    simp only [hex, and_true]
    omega
  · have hf : (tasks.filter fun t => own ≠ some t) = tasks :=
      Finset.filter_true_of_mem fun t ht he => h ⟨t, ht, he⟩
    rw [hf]
    simp [h]

/-- **When queued follow-ups make progress.** With nothing of the run
dispatched, some waiting turn is admitted exactly when the run's job records
describe their rows and the run has fewer active tasks than its cap, or
exactly as many with one of them owning a waiting turn. Beyond that every
active task is held back by the others. -/
theorem followUps_admitted_iff (hq : queue.WellFormed)
    (hrun : ∃ e ∈ queue.entries, e.run = some run) (h : FollowUpsQueued world queue run) :
    (∃ e ∈ queue.entries, WaitsIn run e ∧ runHasCapacity world queue e = .ok true) ↔
      RecordsMatch world queue run ∧ (∃ e ∈ queue.entries, WaitsIn run e) ∧
      ((activeTasks world run).card < run.maxParallel ∨
        ((activeTasks world run).card = run.maxParallel ∧ ∃ e ∈ queue.entries, WaitsIn run e ∧
            ∃ t ∈ activeTasks world run, world.turnToTask e.jobId = some t)) := by
  refine ⟨fun ⟨e, he, hw, hca⟩ => ?_, fun ⟨hm, ⟨e, he, hw⟩, hr⟩ => ?_⟩
  · obtain ⟨hm, hc⟩ := (waiting_capacity_iff h hq hrun he hw).mp hca
    refine ⟨hm, ⟨e, he, hw⟩, ?_⟩
    rcases (card_filter_ne_lt_iff _ _ _).mp hc with hlt | ⟨heq, how⟩
    · exact .inl hlt
    · exact .inr ⟨heq, e, he, hw, how⟩
  · rcases hr with hlt | ⟨heq, e', he', hw', how⟩
    · exact ⟨e, he, hw, (waiting_capacity_iff h hq hrun he hw).mpr
        ⟨hm, (card_filter_ne_lt_iff _ _ _).mpr (.inl hlt)⟩⟩
    · exact ⟨e', he', hw', (waiting_capacity_iff h hq hrun he' hw').mpr
        ⟨hm, (card_filter_ne_lt_iff _ _ _).mpr (.inr ⟨heq, how⟩)⟩⟩

end

/-- A task of `run` that was marked active when its next turn was queued. -/
def activeTask (taskId : TaskId) (run : Uuid) (turn : TurnId) : LocalTaskRecord where
  info :=
    { taskId, runId := some run
      projectId := "00000000000000000000000000000000000000000000000000000000000000aa"
      worktreeId := "00000000000000000000000000000000000000000000000000000000000000bb" }
  status :=
    { state := .active, lastOutcome := none, headOid := none, turns := [⟨turn, none, none⟩] }
  runner := none
  abandonCode := none
  submissionIntentTurnId := none
  submissionRollbackTurnId := none
  fetchedHead := none
  autoContinueIntent := none

def singleFile : QueueRunReference := ⟨⟨simple 5⟩, 1⟩

/-- The store after a follow-up to each task of `singleFile` in `tasks`. -/
def followUpWorld (tasks : List LocalTaskRecord) : World :=
  { World.quiet ⟨7⟩ with tasks := tasks, occupancyTasks := tasks }

/-- The queue after a follow-up to each of the tasks 1 and 2 of `singleFile`. -/
def twoFollowUps : QueueSnapshot :=
  ⟨3, [.sample 1 ⟨1⟩ ⟨1, 1⟩ (.waiting ⟨1, 1⟩) 1 (some singleFile),
    .sample 2 ⟨2⟩ ⟨2, 2⟩ (.waiting ⟨2, 2⟩) 2 (some singleFile)]⟩

theorem twoFollowUps_queued {tasks} (ht : tasks ⊆ [activeTask ⟨1⟩ 5 ⟨1⟩, activeTask ⟨2⟩ 5 ⟨2⟩]) :
    FollowUpsQueued (followUpWorld tasks) twoFollowUps singleFile where
  idle := by decide
  noJob := by
    intro _ _ _ record hr
    cases hr
  queued := by
    intro task hm _
    have hm := ht hm
    simp only [mem_cons, not_mem_nil, or_false] at hm
    rcases hm with rfl | rfl
    · exact ⟨_, mem_cons_self, ⟨by decide, rfl, rfl⟩, rfl, .inr (by decide)⟩
    · exact ⟨_, mem_cons_of_mem _ mem_cons_self, ⟨by decide, rfl, rfl⟩, rfl, .inr (by decide)⟩

/-- With one active task its follow-up is admitted. -/
theorem followUps_admitted_one : ∃ e ∈ twoFollowUps.entries, WaitsIn singleFile e ∧
    runHasCapacity (followUpWorld [activeTask ⟨1⟩ 5 ⟨1⟩]) twoFollowUps e = .ok true := by
  refine (followUps_admitted_iff (by decide) ⟨_, mem_cons_self, rfl⟩
    (twoFollowUps_queued (by simp))).mpr ⟨?_, ?_, .inr ⟨by decide, ?_⟩⟩
  · intro _ _ _ record hr
    cases hr
  · exact ⟨_, mem_cons_self, by decide, rfl, rfl⟩
  · exact ⟨_, mem_cons_self, ⟨by decide, rfl, rfl⟩, ⟨1⟩, by decide, by decide⟩

/-- Two queued follow-ups under a cap of one hold each other back: each is
refused because of the other's active task. -/
theorem followUps_block_each_other :
    ¬ ∀ (world : World) (queue : QueueSnapshot) (run : QueueRunReference), queue.WellFormed →
      (∃ e ∈ queue.entries, e.run = some run) → FollowUpsQueued world queue run →
      ∃ e ∈ queue.entries, WaitsIn run e ∧ runHasCapacity world queue e = .ok true := by
  intro h
  obtain ⟨e, he, -, hc⟩ := h (followUpWorld [activeTask ⟨1⟩ 5 ⟨1⟩, activeTask ⟨2⟩ 5 ⟨2⟩])
    twoFollowUps singleFile (by decide) ⟨_, mem_cons_self, rfl⟩
    (twoFollowUps_queued (List.Subset.refl _))
  have hf : ∀ e ∈ twoFollowUps.entries, runHasCapacity
      (followUpWorld [activeTask ⟨1⟩ 5 ⟨1⟩, activeTask ⟨2⟩ 5 ⟨2⟩]) twoFollowUps e ≠ .ok true := by
    decide
  exact hf e he hc

end MacWorker.Queue
