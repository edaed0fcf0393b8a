import MacWorker.Queue.Claim

/-! # Handing a waiting runner to a parked turn

A runner whose own turn cannot start may take over a parked one. The donor's row is parked
and the recipient's row dispatched in one publication. Unlike in a plain claim, a worker
counts as free only when nothing at all is dispatched to it, and the caller's launch
filter decides which parked rows are candidates. -/
namespace MacWorker.Queue
open Fallible MacWorker.Scheduler List

variable (attempt : Attempt) (observations : List CandidateObservation)
  (eligible : Option (List TurnId))

/-- The best ranked idle worker on which no older row keeps `entry` back. -/
def workerForReassignment (runnerEntry : QueueEntry) (older : List QueueEntry)
    (entry : QueueEntry) : Except WorkerError (Option String) := do
  if !(← runHasCapacity attempt.world attempt.queue entry) then return none
  let affinity ← attempt.world.affinity entry.projectId entry.worktreeId
  (rank observations entry.requirements affinity).findSomeM? fun candidate =>
    let worker := candidate.workerName
    if attempt.eligible worker entry = false ∨
        attempt.queue.entries.any (dispatchedOn worker) = true then .ok none
    else do
      let blocked ← older.anyM (blocksQueueClaim attempt worker runnerEntry)
      return if blocked then none else some worker

def passesFilter (entry : QueueEntry) : Bool :=
  eligible.all (·.contains entry.jobId)

/-- The test the reassignment loop makes of a row, given the rows before it. -/
def reassignCandidate (source : QueueEntry) (eligible : Option (List TurnId))
    (older : List QueueEntry) (entry : QueueEntry) : Except WorkerError (Option String) :=
  if entry.state ≠ .parked ∨ passesFilter eligible entry = false then .ok none
  else do
    if !(← taskTurnIsRunnable attempt.world entry attempt.tasks) then return none
    if !(← taskContextAvailableFrom attempt.world entry source attempt.tasks) then return none
    workerForReassignment attempt observations source older entry

structure Reassignment where
  taskId : TaskId
  claim : QueueEntry
  /-- The project path the recipient inherits, when it had none of its own. -/
  inherited : Option String
  /-- The new runner of each of the two tasks. -/
  runners : List (TaskId × Option ProcessIdentity)
  deriving DecidableEq

/-- The donor's project path, for a recipient that has none. -/
def inheritedContext (world : World) (recipient source : LocalTaskRecord) :
    Except WorkerError (Option String) := do
  if (← world.projectPath recipient).isSome then return none
  match ← world.projectPath source with
  | some path => return some path
  | none =>
    .error (.queue "TASK_PROJECT_CONTEXT_MISSING"
      "legacy recipient requires a saved donor project context")

def handOver (queue : QueueSnapshot) (owner : ProcessIdentity) (nowMillis : Nat)
    (sourceIndex targetIndex : Nat) (worker : String) : Except WorkerError QueueSnapshot := do
  let entries ← updateAt (·.park) sourceIndex queue.entries
  let entries ← updateAt (·.unpark owner) targetIndex entries
  let entries ← updateAt (·.dispatch owner worker nowMillis) targetIndex entries
  let next := { queue with entries }
  next.validate
  return next

/-- The parked row the runner of `source` should take over, and the worker for it. -/
def chooseRecipient (older : List QueueEntry) (source : QueueEntry) :
    Except WorkerError (Option (Nat × String)) := do
  if !(← taskTurnIsRunnable attempt.world source attempt.tasks) then return none
  -- An eligible donor keeps its turn.
  if (← workerForReassignment attempt observations source older source).isSome then return none
  scan (reassignCandidate attempt observations source eligible) [] attempt.queue.entries

def claimParkedFilteredForWaitingRunner (world : World) (queue : QueueSnapshot) (taskId : TaskId)
    (turnId : TurnId) (owner : ProcessIdentity) (observations : List CandidateObservation)
    (nowMillis : Nat) (eligible : Option (List TurnId)) :
    Except WorkerError (QueueSnapshot × Option Reassignment) := do
  owner.validate
  ensure (nowMillis ≠ 0) (.queue "QUEUE_CLAIM_INVALID" "queue claim timestamp must be positive")
  validateCandidates "worker observations contain a duplicate" [] (observations.map (·.workerName))
  queue.validate
  requireQueueClient queue world.clientId
  match splitFirst (·.jobId == turnId) queue.entries with
  | none => .error (.queue "TASK_QUEUE_MISSING" "waiting runner has no queue row")
  | some (older, source, _) =>
    ensure (source.kind = .taskTurn ∧ source.state = .waiting owner)
      (.queue "QUEUE_OWNER_MISMATCH" "only the current waiting runner can yield its turn")
    let tasks ← queuedTaskRecords world queue
    match (tasks.lookup turnId).filter (·.info.taskId == taskId) with
    | none => .error (.queue "TASK_INCONSISTENT" "waiting turn has no matching task")
    | some sourceRecord =>
      let attempt : Attempt := ⟨world, queue, owner, nowMillis, tasks⟩
      match ← chooseRecipient attempt observations eligible older source with
      | none => return (queue, none)
      | some (targetIndex, worker) =>
        match queue.entries[targetIndex]?.bind fun target => tasks.lookup target.jobId with
        | none => return (queue, none)
        | some recipient =>
          let inherited ← inheritedContext world recipient sourceRecord
          let next ← handOver queue owner nowMillis older.length targetIndex worker
          return (next, next.entries[targetIndex]?.map fun claim =>
            { taskId := recipient.info.taskId, claim, inherited
              runners := [(recipient.info.taskId, some owner), (sourceRecord.info.taskId, none)] })

/-! ## What the tests mean -/

section
variable {attempt : Attempt} {observations : List CandidateObservation}
  {source entry : QueueEntry} {older : List QueueEntry} {worker : String}

/-- The worker was observed, is idle, suits the row, and no older row wants it. -/
structure Reassignable (attempt : Attempt) (observations : List CandidateObservation)
    (source : QueueEntry) (older : List QueueEntry) (entry : QueueEntry) (worker : String) :
    Prop where
  capacity : runHasCapacity attempt.world attempt.queue entry = .ok true
  observed : ∃ o ∈ observations, o.workerName = worker ∧
    rejection observations entry.requirements o = none
  eligible : attempt.eligible worker entry = true
  idle : ∀ other ∈ attempt.queue.entries, dispatchedOn worker other = false
  unblocked : ∀ row ∈ older, ¬ attempt.Blocks worker source row

theorem workerForReassignment_some
    (h : workerForReassignment attempt observations source older entry = .ok (some worker)) :
    Reassignable attempt observations source older entry worker := by
  unfold workerForReassignment at h
  obtain ⟨hc, h⟩ := of_test h
  obtain ⟨affinity, -, h⟩ := of_bind h
  obtain ⟨before, candidate, after, hra, hh, -⟩ := findSomeM_some h
  have hm : candidate ∈ rank observations entry.requirements affinity := by
    rw [hra]
    simp
  obtain ⟨hob, hre⟩ := mem_rank.mp hm
  obtain ⟨hg, hh⟩ := of_unless hh
  simp only [not_or, Bool.not_eq_false, Bool.not_eq_true] at hg
  obtain ⟨blocked, hb, hh⟩ := of_bind hh
  cases blocked with
  | true => cases hh
  | false =>
    obtain rfl : candidate.workerName = worker := by simpa using hh
    exact ⟨hc, ⟨candidate, hob, rfl, hre⟩, hg.1,
      fun other ho => any_eq_false.mp hg.2 other ho |> Bool.eq_false_iff.mpr,
      fun row hr => not_blocks_of_false (anyM_false hb row hr)⟩

/-- What a row must be for the reassignment loop to stop at it. -/
structure Adoptable (attempt : Attempt) (observations : List CandidateObservation)
    (source : QueueEntry) (eligible : Option (List TurnId)) (older : List QueueEntry)
    (entry : QueueEntry) (worker : String) : Prop where
  parked : entry.state = .parked
  filter : passesFilter eligible entry = true
  runnable : taskTurnIsRunnable attempt.world entry attempt.tasks = .ok true
  context : taskContextAvailableFrom attempt.world entry source attempt.tasks = .ok true
  worker : Reassignable attempt observations source older entry worker

theorem reassignCandidate_some {eligible}
    (h : reassignCandidate attempt observations source eligible older entry = .ok (some worker)) :
    Adoptable attempt observations source eligible older entry worker := by
  unfold reassignCandidate at h
  obtain ⟨hg, h⟩ := of_unless h
  simp only [ne_eq, not_or, not_not, Bool.not_eq_false] at hg
  obtain ⟨hr, h⟩ := of_test h
  obtain ⟨hc, h⟩ := of_test h
  exact ⟨hg.1, hg.2, hr, hc, workerForReassignment_some h⟩

theorem runnable_record {world tasks} (h : taskTurnIsRunnable world entry tasks = .ok true) :
    entry.kind = .taskTurn ∧ ∃ record, tasks.lookup entry.jobId = some record := by
  unfold taskTurnIsRunnable at h
  split at h
  · cases h
  · rename_i record hr
    obtain ⟨hg, h⟩ := of_unless h
    simp only [ne_eq, not_or, not_not] at hg
    exact ⟨hg.1, record, hr⟩

end

/-! ## The publication -/

section
variable {queue next : QueueSnapshot} {owner : ProcessIdentity}
  {nowMillis sourceIndex targetIndex : Nat}
  {worker : String} {source target : QueueEntry}

theorem handOver_eq_ok (hs : queue.entries[sourceIndex]? = some source)
    (ht : queue.entries[targetIndex]? = some target) (hne : sourceIndex ≠ targetIndex) :
    handOver queue owner nowMillis sourceIndex targetIndex worker = .ok next ↔
      ∃ source' waiting target', source.park = .ok source' ∧ target.unpark owner = .ok waiting ∧
        waiting.dispatch owner worker nowMillis = .ok target' ∧
        next = { queue with
          entries := (queue.entries.set sourceIndex source').set targetIndex target' } ∧
        next.WellFormed := by
  have hlt := (List.getElem?_eq_some_iff.mp ht).1
  have hpa : ∀ row : QueueEntry,
      (queue.entries.set sourceIndex row)[targetIndex]? = some target := fun row => by
    rw [getElem?_set_ne hne, ht]
  have hw : ∀ row row' : QueueEntry,
      ((queue.entries.set sourceIndex row).set targetIndex row')[targetIndex]? = some row' :=
    fun row row' => getElem?_set_self (by simpa using hlt)
  unfold handOver
  refine ⟨fun h => ?_, fun ⟨source', waiting, target', hp, hun, hd, hn, hwf⟩ => ?_⟩
  · obtain ⟨parkedRows, h1, h⟩ := of_bind h
    obtain ⟨source', hp, rfl⟩ := (updateAt_eq_ok hs).mp h1
    obtain ⟨waitingRows, h2, h⟩ := of_bind h
    obtain ⟨waiting, hun, rfl⟩ := (updateAt_eq_ok (hpa source')).mp h2
    obtain ⟨rows, h3, h⟩ := of_bind h
    obtain ⟨target', hd, rfl⟩ := (updateAt_eq_ok (hw source' waiting)).mp h3
    rw [then_eq_ok, QueueSnapshot.validate_iff, pure_eq_ok, set_set] at h
    exact ⟨source', waiting, target', hp, hun, hd, h.2.symm, h.2 ▸ h.1⟩
  · refine bind_eq_ok.mpr ⟨_, (updateAt_eq_ok hs).mpr ⟨source', hp, rfl⟩, ?_⟩
    refine bind_eq_ok.mpr ⟨_, (updateAt_eq_ok (hpa source')).mpr ⟨waiting, hun, rfl⟩, ?_⟩
    refine bind_eq_ok.mpr ⟨_, (updateAt_eq_ok (hw source' waiting)).mpr ⟨target', hd, rfl⟩, ?_⟩
    rw [then_eq_ok, QueueSnapshot.validate_iff, pure_eq_ok, set_set, ← hn]
    exact ⟨hwf, rfl⟩

theorem park_waiting (hv : source.Valid) (hk : source.kind = .taskTurn)
    (hs : source.state = .waiting owner) :
    source.park = .ok { source with state := .parked, slotReservation := none } := by
  have hp : source.preacceptanceAbandonmentProof = none := hv.no_proof (by rw [hs]; rfl)
  have hva := hv.withState hk hp .parked rfl
  exact QueueEntry.park_eq_ok.mpr ⟨hk, hp, by simp [hs], rfl,
    { hva with reservation := fun r hr => by simp at hr }⟩

end

theorem inheritedContext_of {world tasks entry source recipient donor}
    (h : taskContextAvailableFrom world entry source tasks = .ok true)
    (hr : tasks.lookup entry.jobId = some recipient) (hd : tasks.lookup source.jobId = some donor) :
    ∃ inherited, inheritedContext world recipient donor = .ok inherited := by
  unfold taskContextAvailableFrom at h
  unfold inheritedContext
  simp only [hr, hd] at h
  obtain ⟨path, hp, h⟩ := of_bind h
  cases path with
  | some path => exact ⟨none, by simp [hp, pure, Except.pure]⟩
  | none =>
    simp only [Option.isSome_none, Bool.false_eq_true, if_false] at h
    obtain ⟨-, h⟩ := of_unless h
    obtain ⟨donated, hdo, h⟩ := of_bind h
    cases donated with
    | none => cases h
    | some path => exact ⟨some path, by simp [hp, hdo, pure, Except.pure]⟩

/-! ## What a call does -/

/-- The loop stops at `target`: it is the first row of the queue that passes. -/
structure Chosen (attempt : Attempt) (observations : List CandidateObservation)
    (eligible : Option (List TurnId)) (older : List QueueEntry) (source : QueueEntry)
    (before : List QueueEntry) (target : QueueEntry) (worker : String) : Prop where
  donor : workerForReassignment attempt observations source older source = .ok none
  here : reassignCandidate attempt observations source eligible before target = .ok (some worker)
  first : ∀ p row q, before = p ++ row :: q →
    reassignCandidate attempt observations source eligible p row = .ok none

/-- A call either leaves the queue alone or hands the runner over. -/
inductive ReassignOutcome (world : World) (queue : QueueSnapshot) (turnId : TurnId)
    (owner : ProcessIdentity) (observations : List CandidateObservation) (nowMillis : Nat)
    (eligible : Option (List TurnId)) : QueueSnapshot → Option Reassignment → Prop
  | kept : ReassignOutcome world queue turnId owner observations nowMillis eligible queue none
  | handed {older rest before after : List QueueEntry} {source target target' : QueueEntry}
      {tasks : TaskTable} {worker : String} {queue' : QueueSnapshot} {result : Reassignment}
      (position : queue.entries = older ++ source :: rest)
      (turn : source.jobId = turnId)
      (kind : source.kind = .taskTurn)
      (state : source.state = .waiting owner)
      (table : queuedTaskRecords world queue = .ok tasks)
      (found : queue.entries = before ++ target :: after)
      (chosen : Chosen ⟨world, queue, owner, nowMillis, tasks⟩ observations eligible older source
        before target worker)
      (published : queue' = { queue with
        entries := (queue.entries.set older.length
          { source with state := .parked, slotReservation := none }).set before.length target' })
      (claim : target' = { target with state := .dispatching owner worker nowMillis })
      (wellFormed : queue'.WellFormed)
      (claimed : result.claim = target') :
      ReassignOutcome world queue turnId owner observations nowMillis eligible queue' (some result)

section
variable {world : World} {queue queue' : QueueSnapshot} {taskId : TaskId} {turnId : TurnId}
  {owner : ProcessIdentity} {observations : List CandidateObservation} {nowMillis : Nat}
  {eligible : Option (List TurnId)}

theorem getElem_split {l before after : List QueueEntry} {row : QueueEntry}
    (h : l = before ++ row :: after) : l[before.length]? = some row := by
  rw [h]
  simp

theorem positions_ne {l older rest before after : List QueueEntry} {source target : QueueEntry}
    (hs : l = older ++ source :: rest) (ht : l = before ++ target :: after)
    (hne : source.state ≠ target.state) : older.length ≠ before.length := by
  intro he
  have h := getElem_split hs
  rw [he, getElem_split ht, Option.some.injEq] at h
  exact hne (by rw [h])

theorem chooseRecipient_some {attempt older source index worker} :
    chooseRecipient attempt observations eligible older source = .ok (some (index, worker)) ↔
      taskTurnIsRunnable attempt.world source attempt.tasks = .ok true ∧
      ∃ before target after, attempt.queue.entries = before ++ target :: after ∧
        index = before.length ∧
        Chosen attempt observations eligible older source before target worker := by
  unfold chooseRecipient
  refine ⟨fun h => ?_, fun ⟨hr, before, target, after, he, hi, hc⟩ => ?_⟩
  · obtain ⟨hr, h⟩ := of_test h
    obtain ⟨own, how, h⟩ := of_bind h
    cases own with
    | some w => cases h
    | none =>
      obtain ⟨before, target, after, he, hi, hh, hf⟩ := scan_some_iff.mp h
      exact ⟨hr, before, target, after, he, by simpa using hi, how, hh, hf⟩
  · rw [hr, bind_ok, hc.donor]
    exact scan_some_iff.mpr ⟨before, target, after, he, by simpa using hi, hc.here, hc.first⟩

theorem claimParked_ok {result : Option Reassignment}
    (h : claimParkedFilteredForWaitingRunner world queue taskId turnId owner observations nowMillis
      eligible = .ok (queue', result)) :
    Stored world.clientId queue ∧
      ReassignOutcome world queue turnId owner observations nowMillis eligible queue' result ∧
      ∀ r, result = some r → r.runners = [(r.taskId, some owner), (taskId, none)] := by
  unfold claimParkedFilteredForWaitingRunner requireQueueClient at h
  simp only [then_eq_ok, ensure_eq_ok, QueueSnapshot.validate_iff] at h
  obtain ⟨-, -, -, hwf, hcl, h⟩ := h
  refine ⟨⟨hwf, hcl⟩, ?_⟩
  split at h
  · cases h
  rename_i older source rest hsp
  obtain ⟨hpo, ht⟩ := splitFirst_some hsp
  rw [then_eq_ok, ensure_eq_ok] at h
  obtain ⟨⟨hk, hs⟩, h⟩ := h
  obtain ⟨tasks, hta, h⟩ := of_bind h
  split at h
  · cases h
  rename_i sourceRecord hr
  obtain ⟨selected, hch, h⟩ := of_bind h
  cases selected with
  | none => cases h; exact ⟨.kept, fun _ hr => by cases hr⟩
  | some hit =>
    obtain ⟨-, before, target, after, hf, hin, hc⟩ := chooseRecipient_some.mp hch
    have hp := (reassignCandidate_some hc.here).parked
    have hne : older.length ≠ before.length := positions_ne hpo hf (by rw [hs, hp]; simp)
    simp only at hf
    simp only [hin, getElem_split hf, Option.bind_some] at h
    split at h
    · cases h; exact ⟨.kept, fun _ hr => by cases hr⟩
    obtain ⟨inherited, -, h⟩ := of_bind h
    obtain ⟨next, hh, h⟩ := of_bind h
    obtain ⟨source', waiting, target', hpa, hun, hd, hn, hnw⟩ :=
      (handOver_eq_ok (getElem_split hpo) (getElem_split hf) hne).mp hh
    obtain ⟨-, -, -, rfl, -⟩ := QueueEntry.park_eq_ok.mp hpa
    obtain ⟨-, -, rfl, -⟩ := QueueEntry.unpark_eq_ok.mp hun
    obtain ⟨rfl, -⟩ := QueueEntry.dispatch_eq_ok.mp hd
    have hcm : next.entries[before.length]? =
        some { target with state := .dispatching owner hit.2 nowMillis } := by
      rw [hn]
      exact getElem?_set_self (by simp [hf])
    rw [hcm, Option.map_some, pure_eq_ok, Prod.mk.injEq] at h
    obtain ⟨rfl, rfl⟩ := h
    refine ⟨.handed hpo (by simpa using ht) hk hs hta hf hc hn rfl hnw rfl, ?_⟩
    rintro r ⟨⟩
    have ht : sourceRecord.info.taskId = taskId := by
      simpa using (Option.filter_eq_some_iff.mp hr).2
    rw [ht]

variable {older rest before after : List QueueEntry} {source target : QueueEntry} {worker : String}
  (hp : queue.entries = older ++ source :: rest) (hk : source.kind = .taskTurn)
  (hs : source.state = .waiting owner) (hf : queue.entries = before ++ target :: after)
  (ho : owner.Valid) (hno : nowMillis ≠ 0) (hti : target.enqueuedAtMillis ≤ nowMillis)
include hp hk hs hf ho hno hti

/-- A waiting row and a parked one can change places unless the clock is behind
the parked one. -/
theorem handOver_of (hwf : queue.WellFormed) (htk : target.kind = .taskTurn)
    (ht : target.state = .parked) (hw : validateWorkerName worker = .ok ()) :
    ∃ next, handOver queue owner nowMillis older.length before.length worker = .ok next ∧
      next.entries[before.length]? =
        some { target with state := .dispatching owner worker nowMillis } := by
  have hne : older.length ≠ before.length := positions_ne hp hf (by rw [hs, ht]; simp)
  have hso : source.Valid := (hwf.listed source (by rw [hp]; simp)).valid
  have hta : target.Valid := (hwf.listed target (by rw [hf]; simp)).valid
  have hpw := park_waiting hso hk hs
  have hwa := hta.withState htk (hta.no_proof (by rw [ht]; rfl)) (.waiting owner)
    (ProcessIdentity.validate_eq_ok.mpr ho)
  have hu := QueueEntry.unpark_eq_ok.mpr ⟨ho, ⟨htk, ht⟩, rfl, hwa⟩
  obtain ⟨target', hdi⟩ := (QueueEntry.dispatch_iff hwa rfl ho (by simp [htk]) hw hno).mpr hti
  obtain ⟨ht', hv'⟩ := QueueEntry.dispatch_eq_ok.mp hdi
  -- The two rows are replaced one after the other; each step keeps the queue well formed.
  have hpa := (QueueEntry.park_eq_ok.mp hpw).2.2.2.2
  have hwf1 := hwf.set { source with state := .parked, slotReservation := none }
    (getElem_split hp) rfl hpa
  have hwf2 := hwf1.set target' (by rw [getElem?_set_ne hne]; exact getElem_split hf)
    (by rw [ht']; rfl) hv'
  refine ⟨_, (handOver_eq_ok (getElem_split hp) (getElem_split hf) hne).mpr
    ⟨_, _, _, hpw, hu, hdi, rfl, hwf2⟩, ?_⟩
  exact (getElem?_set_self (by simp [hf])).trans (congrArg some ht')

/-- **A chosen row is handed over unless the clock is behind it.** -/
theorem claimParked_of (hq : Stored world.clientId queue)
    (hn : validateCandidates "worker observations contain a duplicate" []
      (observations.map (·.workerName)) = .ok ())
    {tasks : TaskTable} {sourceRecord : LocalTaskRecord}
    (ht : queuedTaskRecords world queue = .ok tasks)
    (hr : tasks.lookup source.jobId = some sourceRecord)
    (hru : taskTurnIsRunnable world source tasks = .ok true)
    (hc : Chosen ⟨world, queue, owner, nowMillis, tasks⟩ observations eligible older source
      before target worker) :
    ∃ queue' result, claimParkedFilteredForWaitingRunner world queue sourceRecord.info.taskId
      source.jobId owner observations nowMillis eligible = .ok (queue', some result) ∧
      result.claim = { target with state := .dispatching owner worker nowMillis } := by
  have ha := reassignCandidate_some hc.here
  obtain ⟨htk, recipient, hre⟩ := runnable_record ha.runnable
  have hw : validateWorkerName worker = .ok () := by
    obtain ⟨o, hob, hna, -⟩ := ha.worker.observed
    exact validateCandidates_ok hn worker (mem_map.mpr ⟨o, hob, hna⟩)
  obtain ⟨next, hh, hcl⟩ := handOver_of hp hk hs hf ho hno hti hq.wellFormed htk ha.parked hw
  obtain ⟨inherited, hin⟩ := inheritedContext_of ha.context hre hr
  have hsp := splitFirst_row hq.wellFormed hp
  have hch := chooseRecipient_some.mpr ⟨hru, before, target, after, hf, rfl, hc⟩
  have how : owner.validate = .ok () := ProcessIdentity.validate_eq_ok.mpr ho
  unfold claimParkedFilteredForWaitingRunner
  simp only [how, ensure_of hno, hn, QueueSnapshot.validate_iff.mpr hq.wellFormed,
    requireQueueClient, ensure_of hq.client, bind_ok, hsp, ensure_of (And.intro hk hs),
    ht, hr, Option.filter_some, beq_self_eq_true, if_true, hch, getElem_split hf,
    Option.bind_some, hre, hin, hh, hcl, Option.map_some]
  exact ⟨_, _, rfl, rfl⟩

end

/-! ## Rows kept back by parked rows -/

section
variable (slotCeilings : Option (List (String × Nat))) (worker : String) (older : List QueueEntry)
  (row : QueueEntry)

/-- The row could be claimed on the worker if it were not for older parked rows. -/
structure HeldByParked (record : LocalTaskRecord) : Prop where
  stored : Stored attempt.world.clientId attempt.queue
  clock : attempt.nowMillis ≠ 0
  names : validateCandidates "worker observations contain a duplicate" []
    (observations.map (·.workerName)) = .ok ()
  table : queuedTaskRecords attempt.world attempt.queue = .ok attempt.tasks
  position : ∃ rest, attempt.queue.entries = older ++ row :: rest
  record : attempt.tasks.lookup row.jobId = some record
  admissible : attempt.Admissible (some row.jobId) worker row
  runnable : taskTurnIsRunnable attempt.world row attempt.tasks = .ok true
  slot : dispatchedTo attempt.queue worker < slotCeiling slotCeilings worker
  parked : ∀ blocker ∈ older, attempt.Blocks worker row blocker → blocker.state = .parked

/-- No row that keeps `row` from the worker is excluded by the launch filter. -/
def BlockersPass : Prop :=
  ∀ blocker ∈ older, attempt.Blocks worker row blocker → passesFilter eligible blocker = true

/-- The runner of `row` is handed to one of the rows that keep it from the worker. -/
def HandsToBlocker (taskId : TaskId) : Prop :=
  ∃ queue' result, claimParkedFilteredForWaitingRunner attempt.world attempt.queue taskId
      row.jobId attempt.caller observations attempt.nowMillis eligible =
        .ok (queue', some result) ∧
    ∃ blocker ∈ older, attempt.Blocks worker row blocker ∧ result.claim.jobId = blocker.jobId

/-- The first row the reassignment loop accepts is one of those that keep `row`
from the worker, the donor itself has no idle worker, and the clock has reached
the row's enqueue time. -/
def NextIsBlocker : Prop :=
  ∃ before blocker after target, attempt.queue.entries = before ++ blocker :: after ∧
    blocker ∈ older ∧ attempt.Blocks worker row blocker ∧
    Chosen attempt observations eligible older row before blocker target ∧
    blocker.enqueuedAtMillis ≤ attempt.nowMillis

variable {attempt observations slotCeilings eligible worker older row} {record : LocalTaskRecord}

theorem handsToBlocker_iff
    (hh : HeldByParked attempt observations slotCeilings worker older row record) :
    HandsToBlocker attempt observations eligible worker older row record.info.taskId ↔
      NextIsBlocker attempt observations eligible worker older row := by
  obtain ⟨rest, hp⟩ := hh.position
  have hwf := hh.stored.wellFormed
  have how : attempt.caller.Valid := by
    have hv := (hwf.listed row (by rw [hp]; simp)).valid.state
    rw [hh.admissible.state] at hv
    exact ProcessIdentity.validate_eq_ok.mp hv
  refine ⟨fun ⟨queue', result, hca, blocker, hm, hb, hj⟩ => ?_,
    fun ⟨before, blocker, after, target, hf, hm, hb, hch, ht⟩ => ?_⟩
  · obtain ⟨-, hou, -⟩ := claimParked_ok hca
    cases hou with
    | @handed older' rest' before after source chosen chosen' tasks target _ _ hp' htu _ _
        ht' hf hch hpu hc hwf' hre =>
      obtain rfl : attempt.tasks = tasks := by
        rw [hh.table] at ht'
        exact Except.ok.inj ht'
      obtain ⟨rfl, rfl, rfl⟩ := split_unique hwf hp hp' htu.symm
      obtain ⟨p, q, hs⟩ := append_of_mem hm
      have hbl : attempt.queue.entries = p ++ blocker :: (q ++ row :: rest) := by
        rw [hp, hs]
        simp
      have hsa : blocker.jobId = chosen.jobId := by
        rw [← hj, hre, hc]
      obtain ⟨rfl, rfl, rfl⟩ := split_unique hwf hbl hf hsa
      have ht : blocker.enqueuedAtMillis ≤ attempt.nowMillis := by
        have hva : chosen'.Valid := by
          refine (hwf'.listed chosen' ?_).valid
          rw [hpu]
          exact mem_set (by simp [hf]) _
        rw [hc] at hva
        exact (QueueEntry.dispatching_validate.mp hva.state).2.2.2
      exact ⟨_, blocker, _, target, hf, hm, hb, hch, ht⟩
  · obtain ⟨queue', result, hca, hc⟩ := claimParked_of hp hh.admissible.kind
      hh.admissible.state hf how hh.clock ht hh.stored hh.names hh.table hh.record hh.runnable hch
    exact ⟨queue', result, hca, blocker, hm, hb, by rw [hc]⟩

/-- **When a runner kept back by parked rows gets the queue moving.** Either the launch
filter passes every row that keeps the turn from the worker, or the reassignment loop
stops at one of them. The turn itself is claimable, or the queue moves, exactly when
nothing keeps it back or that loop stops at such a row. A row the filter excludes still
counts against the turn, and a worker with one dispatched turn is no target for the
loop. -/
theorem headOfLine_iff
    (hheld : HeldByParked attempt observations slotCeilings worker older row record) :
    ((HandsToBlocker attempt observations eligible worker older row record.info.taskId ∨
        BlockersPass attempt eligible worker older row) ↔
      (BlockersPass attempt eligible worker older row ∨
        NextIsBlocker attempt observations eligible worker older row)) ∧
    ((HandsToBlocker attempt observations eligible worker older row record.info.taskId ∨
        attempt.Claimable (some row.jobId) slotCeilings worker older row) ↔
      ((∀ blocker ∈ older, ¬ attempt.Blocks worker row blocker) ∨
        NextIsBlocker attempt observations eligible worker older row)) := by
  have hc : attempt.Claimable (some row.jobId) slotCeilings worker older row ↔
      ∀ blocker ∈ older, ¬ attempt.Blocks worker row blocker :=
    ⟨fun h => h.unblocked, fun h => ⟨hheld.slot, hheld.admissible, h⟩⟩
  rw [handsToBlocker_iff hheld, hc]
  exact ⟨or_comm, or_comm⟩

end

/-- Tasks 1 and 2, each with one queued turn and a saved project path. -/
def twoTaskWorld : World :=
  { World.quiet ⟨7⟩ with
    tasks := [activeTask ⟨1⟩ 5 ⟨1⟩, activeTask ⟨2⟩ 5 ⟨2⟩]
    occupancyTasks := [activeTask ⟨1⟩ 5 ⟨1⟩, activeTask ⟨2⟩ 5 ⟨2⟩]
    turnIds := fun taskId => [⟨taskId.uuid⟩]
    projectPath := fun _ => .ok (some "/work") }

def parkedFirst : QueueSnapshot :=
  ⟨3, [.sample 1 ⟨1⟩ ⟨1, 1⟩ .parked 1 none, waitingTurn]⟩

def idleMini : List CandidateObservation := [⟨"mini", true, .idle, [], [], none, 0, none⟩]

def parkedFirstTasks : TaskTable :=
  [(⟨1⟩, activeTask ⟨1⟩ 5 ⟨1⟩), (⟨2⟩, activeTask ⟨2⟩ 5 ⟨2⟩)]

def parkedFirstAttempt : Attempt := ⟨twoTaskWorld, parkedFirst, ⟨2, 2⟩, 5, parkedFirstTasks⟩

theorem parkedFirst_held : HeldByParked parkedFirstAttempt idleMini none "mini"
    [.sample 1 ⟨1⟩ ⟨1, 1⟩ .parked 1 none] waitingTurn
    (activeTask ⟨2⟩ 5 ⟨2⟩) where
  stored := by decide
  clock := by decide
  names := by decide
  table := by decide
  position := ⟨[], rfl⟩
  record := rfl
  admissible := ⟨rfl, fun _ h => Option.some.inj h, rfl, rfl, by decide, by decide⟩
  runnable := by decide
  slot := by decide
  parked := by
    intro blocker hm _
    obtain rfl := mem_singleton.mp hm
    rfl

/-- Without a filter nothing that keeps the waiting turn back is excluded. -/
theorem headOfLine_parkedFirst :
    HandsToBlocker parkedFirstAttempt idleMini none "mini" [.sample 1 ⟨1⟩ ⟨1, 1⟩ .parked 1 none]
      waitingTurn (activeTask ⟨2⟩ 5 ⟨2⟩).info.taskId ∨
    BlockersPass parkedFirstAttempt none "mini" [.sample 1 ⟨1⟩ ⟨1, 1⟩ .parked 1 none]
      waitingTurn :=
  (headOfLine_iff parkedFirst_held).1.mpr (.inl fun _ _ _ => rfl)

/-- A parked turn that the launch filter excludes keeps the waiting turn from
an idle worker, and the runner of the waiting turn may not take it over. -/
theorem headOfLine_stalls : ¬ ∀ (attempt : Attempt) (observations : List CandidateObservation)
      (eligible : Option (List TurnId)) (slotCeilings : Option (List (String × Nat)))
      (worker : String) (older : List QueueEntry) (row : QueueEntry) (record : LocalTaskRecord),
      HeldByParked attempt observations slotCeilings worker older row record →
      HandsToBlocker attempt observations eligible worker older row record.info.taskId ∨
      BlockersPass attempt eligible worker older row := by
  intro h
  have hs := h _ _ (some []) _ _ _ _ _ parkedFirst_held
  have hc : claimParkedFilteredForWaitingRunner twoTaskWorld parkedFirst ⟨2⟩ ⟨2⟩ ⟨2, 2⟩ idleMini 5
      (some []) = .ok (parkedFirst, none) := by decide
  rcases hs with ⟨queue', result, hh, -⟩ | hp
  · have hk := hc.symm.trans hh
    simp at hk
  · have hb : parkedFirstAttempt.Blocks "mini"
        waitingTurn (.sample 1 ⟨1⟩ ⟨1, 1⟩ .parked 1 none) :=
      ⟨rfl, rfl, by decide, by decide, .inr ⟨rfl, by decide, by decide⟩⟩
    exact Bool.false_ne_true (hp _ mem_cons_self hb)

end MacWorker.Queue
