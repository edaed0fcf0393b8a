import MacWorker.Queue.Capacity

/-! # Claiming a waiting turn

`claimNextMatching` dispatches one of the caller's waiting turns. It walks the ranked
workers, on each of them the rows in queue order, and for each row the rows before it: an
older turn that could run on the same worker keeps a newer one back.
`claimNextMatching_ok` states what the three loops decide together in terms of two
predicates on rows, `Admissible` and `Blocks`. -/
namespace MacWorker.Queue
open Fallible MacWorker.Scheduler

abbrev TaskTable := List (TurnId × LocalTaskRecord)

/-- The record of every queued turn. A turn listed by two tasks is an error. -/
def queuedTaskRecords (world : World) (queue : QueueSnapshot) : Except WorkerError TaskTable := do
  let queued := (queue.entries.filter (·.kind == .taskTurn)).map (·.jobId)
  let records := world.tasks.flatMap fun record =>
    ((world.turnIds record.info.taskId).filter (queued.contains ·)).map (·, record)
  ensure (records.map Prod.fst).Nodup
    (.queue "TASK_INCONSISTENT" "queued turn belongs to more than one task")
  return records

def taskTurnIsRunnable (world : World) (entry : QueueEntry) (tasks : TaskTable) :
    Except WorkerError Bool :=
  match tasks.lookup entry.jobId with
  | none => .ok false
  | some record =>
    if entry.kind ≠ .taskTurn ∨ entry.isCancelRequested ∨
        entry.preacceptanceAbandonmentProof.isSome ∨
        entry.replacementFailure.any (·.shouldPark) ∨
        record.submissionIntentTurnId.isSome ∨ record.submissionRollbackTurnId.isSome ∨
        record.abandonCode = some "SUBMISSION_ROLLBACK_INCOMPLETE" ∨
        (record.status.state ≠ .queued ∧ record.status.state ≠ .active) then
      .ok false
    else do
      ensure (entry.projectId = record.info.projectId ∧ entry.worktreeId = record.info.worktreeId)
        (.queue "TASK_INCONSISTENT" "queued turn and task project identities differ")
      world.prompt record.info.taskId entry.jobId

/-- The turn's project directory is known, by its own record or from the runner's. -/
def taskContextAvailableFrom (world : World) (entry runnerEntry : QueueEntry)
    (tasks : TaskTable) : Except WorkerError Bool :=
  match tasks.lookup entry.jobId with
  | none => .ok false
  | some record => do
    if (← world.projectPath record).isSome then return true
    if entry.projectId ≠ runnerEntry.projectId ∨ entry.worktreeId ≠ runnerEntry.worktreeId then
      return false
    match tasks.lookup runnerEntry.jobId with
    | none => return false
    | some donor => return (← world.projectPath donor).isSome

/-- What one claim attempt fixes: the call's arguments and the task table. -/
structure Attempt where
  world : World
  queue : QueueSnapshot
  caller : ProcessIdentity
  nowMillis : Nat
  tasks : TaskTable

/-- The row could run on the worker, going by the facts known of it now. -/
def Attempt.eligible (attempt : Attempt) (worker : String) (entry : QueueEntry) : Bool :=
  let facts := attempt.world.workerFacts worker attempt.nowMillis
  entry.eligibleFor worker facts.1 facts.2

def blocksQueueClaim (attempt : Attempt) (worker : String) (runnerEntry older : QueueEntry) :
    Except WorkerError Bool :=
  if older.kind ≠ .taskTurn ∨ older.isCancelRequested ∨ attempt.eligible worker older = false then
    .ok false
  else do
    if !(← runHasCapacity attempt.world attempt.queue older) then return false
    match older.state with
    | .waiting owner => return attempt.world.ownerIsLiveOrAmbiguous owner attempt.caller
    | .parked =>
      if !(← taskTurnIsRunnable attempt.world older attempt.tasks) then return false
      taskContextAvailableFrom attempt.world older runnerEntry attempt.tasks
    | .dispatching _ _ _ => return false

/-- The test the claim loop makes of a row, given the rows before it. -/
def claimCandidate (attempt : Attempt) (turnId : Option TurnId) (worker : String)
    (older : List QueueEntry) (candidate : QueueEntry) : Except WorkerError (Option String) :=
  if candidate.kind ≠ .taskTurn ∨ turnId.any (candidate.jobId ≠ ·) then .ok none
  else if candidate.state ≠ .waiting attempt.caller ∨ candidate.isCancelRequested ∨
      attempt.eligible worker candidate = false then .ok none
  else do
    if !(← runHasCapacity attempt.world attempt.queue candidate) then return none
    let blocked ← older.anyM (blocksQueueClaim attempt worker candidate)
    return if blocked then none else some worker

def dispatchedOn (worker : String) (entry : QueueEntry) : Bool :=
  entry.kind == .taskTurn &&
    match entry.state with
    | .dispatching _ selectedWorker _ => selectedWorker == worker
    | _ => false

def dispatchedTo (queue : QueueSnapshot) (worker : String) : Nat :=
  queue.entries.countP (dispatchedOn worker)

def slotCeiling (slotCeilings : Option (List (String × Nat))) (worker : String) : Nat :=
  (slotCeilings.bind fun ceilings => ceilings.lookup worker).getD 1

def claimOnWorker (attempt : Attempt) (turnId : Option TurnId)
    (slotCeilings : Option (List (String × Nat))) (worker : String) :
    Except WorkerError (Option (Nat × String)) :=
  if dispatchedTo attempt.queue worker ≥ slotCeiling slotCeilings worker then .ok none
  else scan (claimCandidate attempt turnId worker) [] attempt.queue.entries

def validateStateWorkerName (value : String) : Except WorkerError Unit :=
  ensure (bytes value ≠ [] ∧ (bytes value).length ≤ 128 ∧ (bytes value).all
        (fun byte => isAsciiAlphanumeric byte || (bytes "._-@").contains byte) = true)
    (.queue "QUEUE_WORKER_INVALID" "queue worker name is invalid")

def validateCandidates (duplicate : String) : List String → List String → Except WorkerError Unit
  | _, [] => .ok ()
  | names, worker :: rest => do
    validateStateWorkerName worker
    ensure (worker ∉ names) (.queue "QUEUE_CANDIDATES_INVALID" duplicate)
    validateCandidates duplicate (worker :: names) rest

theorem validateCandidates_ok {duplicate names workers}
    (h : validateCandidates duplicate names workers = .ok ()) :
    ∀ worker ∈ workers, validateWorkerName worker = .ok () := by
  induction workers generalizing names with
  | nil => simp
  | cons worker rest ih =>
    unfold validateCandidates at h
    simp only [then_eq_ok, validateStateWorkerName, ensure_eq_ok] at h
    obtain ⟨hw, -, hr⟩ := h
    exact List.forall_mem_cons.mpr ⟨ensure_of hw, ih hr⟩

/-- The task table is only read when a parked row could matter. -/
def claimTasks (world : World) (queue : QueueSnapshot) : Except WorkerError TaskTable :=
  if queue.entries.any (·.state == .parked) then queuedTaskRecords world queue else .ok []

def claimNextMatching (world : World) (queue : QueueSnapshot) (owner : ProcessIdentity)
    (rankedWorkers : List String) (claimedAtMillis : Nat) (turnId : Option TurnId)
    (slotCeilings : Option (List (String × Nat))) :
    Except WorkerError (QueueSnapshot × Option QueueEntry) := do
  owner.validate
  ensure (claimedAtMillis ≠ 0)
    (.queue "QUEUE_CLAIM_INVALID" "queue claim timestamp must be positive")
  validateCandidates "ranked workers contain a duplicate" [] rankedWorkers
  updateQueue world.clientId queue fun queue => do
    let tasks ← claimTasks world queue
    let attempt : Attempt := ⟨world, queue, owner, claimedAtMillis, tasks⟩
    match ← rankedWorkers.findSomeM? (claimOnWorker attempt turnId slotCeilings) with
    | none => return (queue, none)
    | some (index, worker) =>
      let entries ← updateAt (·.dispatch owner worker claimedAtMillis) index queue.entries
      return ({ queue with entries }, entries[index]?)

/-! ## What one row must satisfy -/

namespace Attempt

/-- The row is a turn the caller may claim on the worker, leaving older rows aside. -/
structure Admissible (attempt : Attempt) (turnId : Option TurnId) (worker : String)
    (candidate : QueueEntry) : Prop where
  kind : candidate.kind = .taskTurn
  turn : ∀ turn, turnId = some turn → candidate.jobId = turn
  state : candidate.state = .waiting attempt.caller
  live : candidate.isCancelRequested = false
  eligible : attempt.eligible worker candidate = true
  capacity : runHasCapacity attempt.world attempt.queue candidate = .ok true

/-- The older row could itself be started on the worker, by its own runner or by
the one that asks. -/
structure Blocks (attempt : Attempt) (worker : String) (runnerEntry older : QueueEntry) :
    Prop where
  kind : older.kind = .taskTurn
  live : older.isCancelRequested = false
  eligible : attempt.eligible worker older = true
  capacity : runHasCapacity attempt.world attempt.queue older = .ok true
  startable : (∃ owner, older.state = .waiting owner ∧
      attempt.world.ownerIsLiveOrAmbiguous owner attempt.caller = true) ∨
    (older.state = .parked ∧ taskTurnIsRunnable attempt.world older attempt.tasks = .ok true ∧
      taskContextAvailableFrom attempt.world older runnerEntry attempt.tasks = .ok true)

/-- The row may be dispatched to the worker now, the rows before it included. -/
structure Claimable (attempt : Attempt) (turnId : Option TurnId)
    (slotCeilings : Option (List (String × Nat))) (worker : String) (older : List QueueEntry)
    (candidate : QueueEntry) : Prop where
  slot : dispatchedTo attempt.queue worker < slotCeiling slotCeilings worker
  admissible : attempt.Admissible turnId worker candidate
  unblocked : ∀ row ∈ older, ¬ attempt.Blocks worker candidate row

/-- None of the workers can be given one of the caller's rows. -/
def Exhausted (attempt : Attempt) (turnId : Option TurnId)
    (slotCeilings : Option (List (String × Nat))) (workers : List String) : Prop :=
  ∀ worker ∈ workers, ∀ before row after, attempt.queue.entries = before ++ row :: after →
    ¬ attempt.Claimable turnId slotCeilings worker before row

end Attempt

section
variable {attempt : Attempt} {turnId : Option TurnId} {worker : String}
  {slotCeilings : Option (List (String × Nat))}

theorem not_blocks_of_false {runnerEntry older}
    (h : blocksQueueClaim attempt worker runnerEntry older = .ok false) :
    ¬ attempt.Blocks worker runnerEntry older := by
  intro hb
  unfold blocksQueueClaim at h
  simp only [hb.kind, hb.live, hb.eligible, hb.capacity, ne_eq, not_true_eq_false,
    Bool.false_eq_true,
    Bool.true_eq_false, or_self, if_false, bind_ok, Bool.not_true] at h
  rcases hb.startable with ⟨owner, hs, hl⟩ | ⟨hs, hr, hc⟩
  · simp [hs, hl] at h
  · simp [hs, hr, hc] at h

theorem blocks_of_true {runnerEntry older}
    (h : blocksQueueClaim attempt worker runnerEntry older = .ok true) :
    attempt.Blocks worker runnerEntry older := by
  unfold blocksQueueClaim at h
  obtain ⟨hg, h⟩ := of_unless h
  simp only [ne_eq, not_or, not_not, Bool.not_eq_true, Bool.not_eq_false] at hg
  obtain ⟨hc, h⟩ := of_test h
  refine ⟨hg.1, hg.2.1, hg.2.2, hc, ?_⟩
  split at h
  · rename_i owner hs
    exact .inl ⟨owner, hs, by simpa using h⟩
  · rename_i hs
    obtain ⟨hr, h⟩ := of_test h
    exact .inr ⟨hs, hr, by simpa using h⟩
  · cases h

theorem claimCandidate_some {older candidate w}
    (h : claimCandidate attempt turnId worker older candidate = .ok (some w)) :
    w = worker ∧ attempt.Admissible turnId worker candidate ∧
      ∀ row ∈ older, ¬ attempt.Blocks worker candidate row := by
  unfold claimCandidate at h
  obtain ⟨hk, h⟩ := of_unless h
  obtain ⟨hg, h⟩ := of_unless h
  simp only [ne_eq, not_or, not_not, Bool.not_eq_true, Bool.not_eq_false] at hk hg
  obtain ⟨hc, h⟩ := of_test h
  obtain ⟨blocked, hb, h⟩ := of_bind h
  cases blocked with
  | true => cases h
  | false =>
    have hw : worker = w := by simpa using h
    refine ⟨hw.symm, ⟨hk.1, fun t ht => ?_, hg.1, hg.2.1, hg.2.2, hc⟩, ?_⟩
    · have ht := ht ▸ hk.2
      simpa using ht
    · exact fun row hr => not_blocks_of_false (anyM_false hb row hr)

theorem claimCandidate_none {older candidate}
    (h : claimCandidate attempt turnId worker older candidate = .ok none)
    (ha : attempt.Admissible turnId worker candidate) :
    ∃ row ∈ older, attempt.Blocks worker candidate row := by
  have htu : turnId.any (fun t => decide (candidate.jobId ≠ t)) = false := by
    cases ht : turnId with
    | none => rfl
    | some t => simp [ha.turn t ht]
  unfold claimCandidate at h
  simp only [ha.kind, ha.state, ha.live, ha.eligible, ha.capacity, htu, ne_eq, not_true_eq_false,
    Bool.false_eq_true, Bool.true_eq_false, or_self, if_false, bind_ok, Bool.not_true] at h
  obtain ⟨blocked, hb, h⟩ := of_bind h
  cases blocked with
  | false => cases h
  | true =>
    obtain ⟨row, hm, hr⟩ := anyM_true hb
    exact ⟨row, hm, blocks_of_true hr⟩

theorem claimOnWorker_some {index w}
    (h : claimOnWorker attempt turnId slotCeilings worker = .ok (some (index, w))) :
    w = worker ∧ ∃ before row after, attempt.queue.entries = before ++ row :: after ∧
      index = before.length ∧ attempt.Claimable turnId slotCeilings worker before row := by
  unfold claimOnWorker at h
  obtain ⟨hs, h⟩ := of_unless h
  obtain ⟨before, row, after, he, hi, hr, -⟩ := scan_some_iff.mp h
  obtain ⟨hw, ha, hb⟩ := claimCandidate_some hr
  exact ⟨hw, before, row, after, he, by simpa using hi, by omega, ha, by simpa using hb⟩

theorem claimOnWorker_none (h : claimOnWorker attempt turnId slotCeilings worker = .ok none)
    {before after row} (he : attempt.queue.entries = before ++ row :: after) :
    ¬ attempt.Claimable turnId slotCeilings worker before row := by
  intro hc
  unfold claimOnWorker at h
  split at h
  · have := hc.slot
    omega
  · have hr := scan_none (he ▸ h)
    obtain ⟨older, hm, hb⟩ := claimCandidate_none hr hc.admissible
    exact hc.unblocked older (by simpa using hm) hb

end

/-- What a claim leaves behind: either no worker can take any of the caller's
rows, or the best ranked worker that can is given one and nothing else moves. -/
inductive ClaimOutcome (attempt : Attempt) (turnId : Option TurnId)
    (slotCeilings : Option (List (String × Nat))) (rankedWorkers : List String) :
    QueueSnapshot → Option QueueEntry → Prop
  | nothing
      (exhausted : attempt.Exhausted turnId slotCeilings rankedWorkers) :
      ClaimOutcome attempt turnId slotCeilings rankedWorkers attempt.queue none
  | dispatched {preferred others : List String} {worker : String} {before after : List QueueEntry}
      {row row' : QueueEntry}
      (ranked : rankedWorkers = preferred ++ worker :: others)
      (position : attempt.queue.entries = before ++ row :: after)
      (claimable : attempt.Claimable turnId slotCeilings worker before row)
      (best : attempt.Exhausted turnId slotCeilings preferred)
      (state : row' = { row with
        state := .dispatching attempt.caller worker attempt.nowMillis }) :
      ClaimOutcome attempt turnId slotCeilings rankedWorkers
        { attempt.queue with entries := before ++ row' :: after } (some row')

theorem claimNextMatching_ok {world queue queue' owner rankedWorkers t turnId slotCeilings claim}
    (h : claimNextMatching world queue owner rankedWorkers t turnId slotCeilings =
      .ok (queue', claim)) :
    Stored world.clientId queue ∧ Stored world.clientId queue' ∧
      ∃ tasks, claimTasks world queue = .ok tasks ∧
        ClaimOutcome ⟨world, queue, owner, t, tasks⟩ turnId slotCeilings rankedWorkers
          queue' claim := by
  unfold claimNextMatching at h
  simp only [then_eq_ok] at h
  obtain ⟨hq, hu, hn⟩ := updateQueue_eq_ok.mp h.2.2.2
  refine ⟨hq, hn, ?_⟩
  obtain ⟨tasks, ht, hu⟩ := of_bind hu
  obtain ⟨selected, hf, hu⟩ := of_bind hu
  refine ⟨tasks, ht, ?_⟩
  cases selected with
  | none =>
    simp only [pure_eq_ok, Prod.mk.injEq] at hu
    obtain ⟨rfl, rfl⟩ := hu
    exact .nothing fun worker hw before row after he =>
      claimOnWorker_none (findSomeM_none hf worker hw) he
  | some hit =>
    obtain ⟨preferred, worker, others, hr, hh, hbe⟩ := findSomeM_some hf
    obtain ⟨hw, before, row, after, he, hi, hc⟩ := claimOnWorker_some hh
    obtain ⟨entries, hs, hu⟩ := of_bind hu
    simp only at he
    rw [hi, hw, he] at hs
    obtain ⟨row', hro, rfl⟩ := updateAt_split.mp hs
    simp only [pure_eq_ok, Prod.mk.injEq, hi, List.getElem?_append_right (Nat.le_refl _),
      Nat.sub_self, List.getElem?_cons_zero] at hu
    obtain ⟨rfl, rfl⟩ := hu
    exact .dispatched hr he hc
      (fun better hb before row after he => claimOnWorker_none (hbe better hb) he)
      (QueueEntry.dispatch_eq_ok.mp hro).1

/-- **A claim is first in, first out per worker.** A successful call that dispatches a row
gives it to a worker with a free slot; the row was one of the caller's own waiting turns
(the requested one, if any), no older turn could have run there instead, no better ranked
worker had such a row, and the row's state is all that changes. A call that dispatches
nothing had no such row on any worker. -/
theorem claimNextMatching_fifo {world queue queue' owner rankedWorkers t turnId slotCeilings claim}
    (h : claimNextMatching world queue owner rankedWorkers t turnId slotCeilings =
      .ok (queue', claim)) :
    ∃ tasks, claimTasks world queue = .ok tasks ∧
      (∀ row', claim = some row' → ∃ preferred worker others before row after,
        rankedWorkers = preferred ++ worker :: others ∧
        queue.entries = before ++ row :: after ∧
        Attempt.Claimable ⟨world, queue, owner, t, tasks⟩ turnId slotCeilings worker before row ∧
        Attempt.Exhausted ⟨world, queue, owner, t, tasks⟩ turnId slotCeilings preferred ∧
        row' = { row with state := .dispatching owner worker t } ∧
        queue' = { queue with entries := before ++ row' :: after }) ∧
      (claim = none → queue' = queue ∧
        Attempt.Exhausted ⟨world, queue, owner, t, tasks⟩ turnId slotCeilings rankedWorkers) := by
  obtain ⟨-, -, tasks, ht, hou⟩ := claimNextMatching_ok h
  refine ⟨tasks, ht, ?_⟩
  cases hou with
  | nothing hn =>
    exact ⟨fun row' hr => (Option.some_ne_none _ hr.symm).elim, fun _ => ⟨rfl, hn⟩⟩
  | @dispatched preferred others worker before after row row' hra he hc hb hs =>
    refine ⟨fun row'' hr => ?_, fun hr => (Option.some_ne_none _ hr).elim⟩
    cases hr
    exact ⟨preferred, worker, others, before, row, after, hra, he, hc, hb, hs, rfl⟩

def waitingTurn : QueueEntry := .sample 2 ⟨2⟩ ⟨2, 2⟩ (.waiting ⟨2, 2⟩) 2 none

def twoTurns : QueueSnapshot :=
  ⟨3, [.sample 1 ⟨1⟩ ⟨1, 1⟩ (.waiting ⟨1, 1⟩) 1 none, waitingTurn]⟩

/-- The older of two turns is claimed and the newer one is left alone. -/
theorem claimNextMatching_fifo_twoTurns : ∃ queue' row' tasks,
    claimNextMatching (.quiet ⟨7⟩) twoTurns ⟨1, 1⟩ ["mini"] 5 none none = .ok (queue', some row') ∧
    ∃ preferred worker others before row after,
      ["mini"] = preferred ++ worker :: others ∧ twoTurns.entries = before ++ row :: after ∧
      Attempt.Claimable ⟨.quiet ⟨7⟩, twoTurns, ⟨1, 1⟩, 5, tasks⟩ none none worker before row := by
  have hru : claimNextMatching (.quiet ⟨7⟩) twoTurns ⟨1, 1⟩ ["mini"] 5 none none = .ok
      (⟨3, [.sample 1 ⟨1⟩ ⟨1, 1⟩ (.dispatching ⟨1, 1⟩ "mini" 5) 1 none, waitingTurn]⟩,
      some (.sample 1 ⟨1⟩ ⟨1, 1⟩ (.dispatching ⟨1, 1⟩ "mini" 5) 1 none)) := by decide
  obtain ⟨tasks, -, hs, -⟩ := claimNextMatching_fifo hru
  obtain ⟨preferred, worker, others, before, row, after, hr, he, hc, -⟩ := hs _ rfl
  exact ⟨_, _, tasks, hru, preferred, worker, others, before, row, after, hr, he, hc⟩

def batchFirst : QueueSnapshot :=
  ⟨3, [{ QueueEntry.sample 1 ⟨1⟩ ⟨1, 1⟩ (.waiting ⟨1, 1⟩) 1 none with kind := .batch },
    waitingTurn]⟩

/-- Retired batch rows do not take part in the order: a task turn is claimed
past an older batch row that waits under a live owner and fits the worker. -/
theorem claim_passes_batch_row :
    ¬ ∀ (world : World) (queue queue' : QueueSnapshot) (owner : ProcessIdentity)
      (rankedWorkers : List String) (t : Nat) (turnId : Option TurnId)
      (slotCeilings : Option (List (String × Nat))) (row' : QueueEntry),
      claimNextMatching world queue owner rankedWorkers t turnId slotCeilings =
        .ok (queue', some row') →
      ∀ worker before row after, queue.entries = before ++ row :: after →
        row' = { row with state := .dispatching owner worker t } →
        ∀ older ∈ before, ¬ (older.isCancelRequested = false ∧
          older.eligibleFor worker (world.workerFacts worker t).1 (world.workerFacts worker t).2 ∧
          runHasCapacity world queue older = .ok true ∧
          ∃ waiter, older.state = .waiting waiter ∧
            world.ownerIsLiveOrAmbiguous waiter owner = true) := by
  intro h
  have hr : claimNextMatching (.quiet ⟨7⟩) batchFirst ⟨2, 2⟩ ["mini"] 5 none none = .ok
      (⟨3, [{ QueueEntry.sample 1 ⟨1⟩ ⟨1, 1⟩ (.waiting ⟨1, 1⟩) 1 none with kind := .batch },
        .sample 2 ⟨2⟩ ⟨2, 2⟩ (.dispatching ⟨2, 2⟩ "mini" 5) 2 none]⟩,
      some (.sample 2 ⟨2⟩ ⟨2, 2⟩ (.dispatching ⟨2, 2⟩ "mini" 5) 2 none)) := by decide
  refine h _ _ _ _ _ _ _ _ _ hr "mini" [_] _ [] rfl rfl _ List.mem_cons_self ?_
  exact ⟨rfl, by decide, by decide, ⟨1, 1⟩, rfl, by decide⟩

end MacWorker.Queue
