import MacWorker.Lib.Rotation
import MacWorker.Queue.SpawnPermit
import Mathlib.Data.Finset.Sort
import Mathlib.Data.List.AList
import Mathlib.Data.String.Basic

/-! # The index of active tasks

A task that is not over has a receipt in an index beside the records, so that a tick does
not read every record: the receipt is written before a record that needs it and removed
after the record that no longer does. Wherever a call dies, the receipts cover the records
that need one. A tick takes a window of the receipts and leaves a cursor behind; windows
over receipts that stay the same reach each one. -/
namespace MacWorker.Queue
open Fallible Relation List

/-! ## Files -/

def taskFileName (taskId : TaskId) : String := simple taskId.uuid ++ ".json"

/-- Records and receipts by their file names. -/
structure TaskStore where
  tasks : AList fun _ : String => LocalTaskRecord
  receipts : Finset String
  cursor : Option String
  bootstrapped : Bool

def TaskStore.empty : TaskStore := ⟨∅, ∅, none, false⟩

inductive TaskWrite where
  | record (name : String) (record : LocalTaskRecord)
  | removeRecord (name : String)
  | receipt (name : String)
  | retire (name : String)
  | cursor (lastKey : String)
  | bootstrapped

namespace TaskStore

variable (store : TaskStore)

def write : TaskWrite → TaskStore
  | .record name record => { store with tasks := store.tasks.insert name record }
  | .removeRecord name => { store with tasks := store.tasks.erase name }
  | .receipt name => { store with receipts := insert name store.receipts }
  | .retire name => { store with receipts := store.receipts.erase name }
  | .cursor lastKey => { store with cursor := some lastKey }
  | .bootstrapped => { store with bootstrapped := true }

def writeAll (writes : List TaskWrite) : TaskStore := writes.foldl write store

def activeNames : List String := store.receipts.sort (· ≤ ·)

def taskNames : List String := store.tasks.keys.toFinset.sort (· ≤ ·)

def listTasks : List LocalTaskRecord :=
  store.taskNames.filterMap fun name => store.tasks.lookup name

/-- The records of the receipts, once the index is complete. A receipt without a record is
skipped. -/
def occupancyTaskRecords : List LocalTaskRecord :=
  if store.bootstrapped then store.activeNames.filterMap fun name => store.tasks.lookup name
  else store.listTasks

def readTask (taskId : TaskId) : Except WorkerError LocalTaskRecord :=
  match store.tasks.lookup (taskFileName taskId) with
  | none => .error .notFound
  | some record => do
    ensure (record.info.taskId = taskId) (.invalidState "task filename and record identity differ")
    return record

end TaskStore

/-! ## Which tasks are kept -/

def taskRecordNeedsActiveIndex (record : LocalTaskRecord) : Bool :=
  match record.status.state with
  | .queued | .active | .open => true
  | .closed | .abandoned | .lost =>
    record.submissionIntentTurnId.isSome || record.submissionRollbackTurnId.isSome ||
      record.runner.isSome

def recordReferencedTurnIds (record : LocalTaskRecord) : List TurnId :=
  record.status.turns.map (·.turnId) ++ record.submissionIntentTurnId.toList ++
    record.submissionRollbackTurnId.toList

/-- What a call reads beside the records and receipts. -/
structure IndexEnv where
  /-- The turns in the queue, if it can be read. -/
  queued : Except WorkerError (List TurnId)
  /-- The integration of a closed task may not be over. -/
  closedPending : TaskId → Bool
  receiptReadable : String → Bool
  /-- Another process holds the lock of a receipt. -/
  receiptBusy : String → Bool
  activeTaskIdFromName : String → Except WorkerError TaskId

namespace IndexEnv

variable (env : IndexEnv) (store : TaskStore) (record : LocalTaskRecord)

def closedIntegrationNeedsActiveIndex : Bool :=
  record.status.state == .closed && env.closedPending record.info.taskId

def recordHasRelevantQueueTurn (queued : List TurnId) : Bool :=
  (recordReferencedTurnIds record).any fun turnId => queued.contains turnId

/-- A queue that cannot be read keeps every receipt. -/
def shouldKeepActiveIndex : Bool :=
  taskRecordNeedsActiveIndex record || env.closedIntegrationNeedsActiveIndex record ||
    match env.queued with
    | .ok queued => recordHasRelevantQueueTurn record queued
    | .error _ => true

def ensureActiveTaskIndex (taskId : TaskId) : Except WorkerError (List TaskWrite) :=
  if taskFileName taskId ∈ store.receipts then do
    ensure (env.receiptReadable (taskFileName taskId) = true)
      (.invalidState "active-task receipt is corrupt")
    return []
  else .ok [.receipt (taskFileName taskId)]

def syncActiveTaskIndex : Except WorkerError (List TaskWrite) :=
  if env.shouldKeepActiveIndex record then env.ensureActiveTaskIndex store record.info.taskId
  else .ok [.retire (taskFileName record.info.taskId)]

/-! ## Calls that change a record -/

def publishKept : Except WorkerError (List TaskWrite) := do
  let receipt ← env.ensureActiveTaskIndex store record.info.taskId
  return receipt ++ [.record (taskFileName record.info.taskId) record]

def createTask : Except WorkerError (List TaskWrite) :=
  match store.tasks.lookup (taskFileName record.info.taskId) with
  | some _ => do
    let existing ← store.readTask record.info.taskId
    if existing = record then env.syncActiveTaskIndex store existing
    else .error (.queue "TASK_ID_CONFLICT" "task ID is already present with different metadata")
  | none =>
    if env.shouldKeepActiveIndex record then env.publishKept store record
    else .ok [.record (taskFileName record.info.taskId) record]

def publishReplacement (replacement : LocalTaskRecord) : Except WorkerError (List TaskWrite) :=
  if env.shouldKeepActiveIndex replacement then env.publishKept store replacement
  else .ok [.record (taskFileName replacement.info.taskId) replacement,
    .retire (taskFileName replacement.info.taskId)]

/-- Replace a record, if it is still the expected one. -/
def replaceTaskIfCurrent (replacement : LocalTaskRecord) (expected : Option LocalTaskRecord)
    (skipIdentical : Bool) :
    Except WorkerError (List TaskWrite) := do
  let existing ← store.readTask replacement.info.taskId
  if expected.any (· != existing) then
    if env.shouldKeepActiveIndex existing then
      env.ensureActiveTaskIndex store existing.info.taskId
    else return []
  else if skipIdentical && replacement == existing then env.syncActiveTaskIndex store existing
  else env.publishReplacement store replacement

def removeTaskSubmissionRecord (taskId : TaskId) : List TaskWrite :=
  [.removeRecord (taskFileName taskId)]

/-! ## Calls on the index -/

/-- One task of a page. A failure is reported and the page goes on. -/
def refreshTask (taskId : TaskId) : List TaskWrite :=
  match store.readTask taskId with
  | .error _ => []
  | .ok record => ((env.syncActiveTaskIndex store record).toOption).getD []

/-- Each task sees the index as those before it have left it. -/
def refreshPage (env : IndexEnv) : TaskStore → List TaskId → List TaskWrite
  | _, [] => []
  | store, taskId :: rest =>
    env.refreshTask store taskId ++
      env.refreshPage (store.writeAll (env.refreshTask store taskId)) rest

def refreshActiveTaskIndex (taskIds : List TaskId) (maxTasksPerTick : Nat) :
    Except WorkerError (List TaskWrite) := do
  let _ ← env.queued
  return env.refreshPage store (taskIds.eraseDups.take (max maxTasksPerTick 1))

/-- One record of an older store. A receipt that cannot be read is reported. -/
def rebuildTask (name : String) : List TaskWrite :=
  match store.tasks.lookup name with
  | none => []
  | some record =>
    if taskFileName record.info.taskId = name ∧ env.shouldKeepActiveIndex record = true then
      ((env.ensureActiveTaskIndex store record.info.taskId).toOption).getD []
    else []

def rebuildPage (env : IndexEnv) : TaskStore → List String → List TaskWrite
  | _, [] => []
  | store, name :: rest =>
    env.rebuildTask store name ++ env.rebuildPage (store.writeAll (env.rebuildTask store name)) rest

def bootstrapActiveTaskIndex : Except WorkerError (List TaskWrite) :=
  if store.bootstrapped then .ok []
  else do
    let _ ← env.queued
    return env.rebuildPage store store.taskNames ++ [.bootstrapped]

/-! ## Ticks -/

inductive Attempt where
  | selected (taskId : TaskId)
  | busySkipped (taskId : TaskId)
  | orphan (taskId : TaskId)
  | failed (error : WorkerError)

def attempt (name : String) : Attempt :=
  match env.activeTaskIdFromName name with
  | .error error => .failed error
  | .ok taskId =>
    if env.receiptBusy name then .busySkipped taskId
    else if env.receiptReadable name = false then
      .failed (.invalidState "active-task receipt is corrupt")
    else
      match store.readTask taskId with
      | .ok _ => .selected taskId
      | .error .notFound => .orphan taskId
      | .error error => .failed error

def rotateFromCursor (last : Option String) (sorted : List String) : List String :=
  match last with
  | none => sorted
  | some last =>
    match sorted.findIdx? fun name => last < name with
    | some pos => sorted.drop pos ++ sorted.take pos
    | none => sorted

def linearRemainingAfterCursor (last : Option String) (sorted : List String) : Nat :=
  match last with
  | none => sorted.length
  | some last =>
    let tail := sorted.countP fun name => last < name
    if tail = 0 then sorted.length else tail

structure ActiveTaskSelection where
  attempted : List (String × Attempt)
  truncated : Bool

def selectActiveTaskIds (maxTasksPerTick : Nat) : ActiveTaskSelection × List TaskWrite :=
  let bound := max maxTasksPerTick 1
  let window := (rotateFromCursor store.cursor store.activeNames).take bound
  (⟨window.map fun name => (name, env.attempt store name),
    decide (bound < linearRemainingAfterCursor store.cursor store.activeNames)⟩,
    (window.getLast?.map TaskWrite.cursor).toList)

end IndexEnv

/-! ## Writes that keep the receipts complete -/

def TaskStore.Indexed (store : TaskStore) : Prop :=
  ∀ name record, store.tasks.lookup name = some record → taskRecordNeedsActiveIndex record = true →
    name ∈ store.receipts

inductive Kept (store : TaskStore) : TaskWrite → Prop
  | record (name : String) (record : LocalTaskRecord)
      (receipt : taskRecordNeedsActiveIndex record = true → name ∈ store.receipts) :
      Kept store (.record name record)
  | removeRecord (name : String) : Kept store (.removeRecord name)
  | receipt (name : String) : Kept store (.receipt name)
  | retire (name : String) (unneeded : ∀ record, store.tasks.lookup name = some record →
      taskRecordNeedsActiveIndex record = false) : Kept store (.retire name)
  | cursor (lastKey : String) : Kept store (.cursor lastKey)
  | bootstrapped : Kept store .bootstrapped

def AllKept : TaskStore → List TaskWrite → Prop
  | _, [] => True
  | store, write :: rest => Kept store write ∧ AllKept (store.write write) rest

section
variable {store : TaskStore} {writes : List TaskWrite} {env : IndexEnv} {taskId : TaskId}
  {record : LocalTaskRecord}

theorem Kept.indexed {write} (hk : Kept store write) (h : store.Indexed) :
    (store.write write).Indexed := by
  intro name found hf hn
  cases hk with
  | record target record receipt =>
    by_cases heq : name = target
    · subst heq
      rw [TaskStore.write, AList.lookup_insert] at hf
      cases hf
      exact receipt hn
    · rw [TaskStore.write, AList.lookup_insert_ne heq] at hf
      exact h name found hf hn
  | removeRecord target =>
    by_cases heq : name = target
    · subst heq
      rw [TaskStore.write, AList.lookup_erase] at hf
      cases hf
    · rw [TaskStore.write, AList.lookup_erase_ne heq] at hf
      exact h name found hf hn
  | receipt target => exact Finset.mem_insert_of_mem (h name found hf hn)
  | retire target unneeded =>
    refine Finset.mem_erase.mpr ⟨?_, h name found hf hn⟩
    rintro rfl
    rw [unneeded found hf] at hn
    cases hn
  | cursor lastKey => exact h name found hf hn
  | bootstrapped => exact h name found hf hn

theorem allKept_append (first second : List TaskWrite) : AllKept store (first ++ second) ↔
      AllKept store first ∧ AllKept (store.writeAll first) second := by
  induction first generalizing store with
  | nil => simp [AllKept, TaskStore.writeAll]
  | cons write rest ih =>
    simp only [cons_append, AllKept, ih, and_assoc]
    rfl

theorem AllKept.indexed (hk : AllKept store writes) (h : store.Indexed) :
    (store.writeAll writes).Indexed := by
  induction writes generalizing store with
  | nil => exact h
  | cons write rest ih => exact ih hk.2 (hk.1.indexed h)

theorem needs_of_not_kept (h : env.shouldKeepActiveIndex record = false) :
    taskRecordNeedsActiveIndex record = false := by
  simp only [IndexEnv.shouldKeepActiveIndex, Bool.or_eq_false_iff] at h
  exact h.1.1

theorem readTask_ok (h : store.readTask taskId = .ok record) :
    store.tasks.lookup (taskFileName taskId) = some record ∧ record.info.taskId = taskId := by
  unfold TaskStore.readTask at h
  split at h
  · cases h
  · rename_i found hf
    obtain ⟨hid, hr⟩ := of_then h
    cases hr
    exact ⟨hf, ensure_eq_ok.mp hid⟩

theorem ensure_kept (h : env.ensureActiveTaskIndex store taskId = .ok writes) :
    AllKept store writes ∧ taskFileName taskId ∈ (store.writeAll writes).receipts := by
  unfold IndexEnv.ensureActiveTaskIndex at h
  split at h
  · rename_i hm
    obtain ⟨-, hw⟩ := of_then h
    cases hw
    exact ⟨trivial, hm⟩
  · cases h
    exact ⟨⟨.receipt _, trivial⟩, Finset.mem_insert_self _ _⟩

theorem sync_kept (hr : store.tasks.lookup (taskFileName record.info.taskId) = some record)
    (h : env.syncActiveTaskIndex store record = .ok writes) : AllKept store writes := by
  unfold IndexEnv.syncActiveTaskIndex at h
  split at h
  · exact (ensure_kept h).1
  · rename_i hk
    cases h
    refine ⟨.retire _ fun found hf => ?_, trivial⟩
    cases hr.symm.trans hf
    exact needs_of_not_kept (by simpa using hk)

theorem publishKept_kept (h : env.publishKept store record = .ok writes) :
    AllKept store writes := by
  obtain ⟨receipt, hr, hw⟩ := of_bind h
  cases hw
  obtain ⟨hk, hm⟩ := ensure_kept hr
  exact (allKept_append _ _).mpr ⟨hk, .record _ _ fun _ => hm, trivial⟩

theorem createTask_kept (h : env.createTask store record = .ok writes) : AllKept store writes := by
  unfold IndexEnv.createTask at h
  split at h
  · obtain ⟨existing, hr, h⟩ := of_bind h
    obtain ⟨-, h⟩ := of_if h
    obtain ⟨hf, hid⟩ := readTask_ok hr
    exact sync_kept (by rw [hid]; exact hf) h
  · split at h
    · exact publishKept_kept h
    · rename_i hk
      cases h
      have hne := needs_of_not_kept (Bool.eq_false_iff.mpr hk)
      refine ⟨.record _ _ fun hn => ?_, trivial⟩
      cases hne.symm.trans hn

theorem publishReplacement_kept (h : env.publishReplacement store record = .ok writes) :
    AllKept store writes := by
  unfold IndexEnv.publishReplacement at h
  split at h
  · exact publishKept_kept h
  · rename_i hk
    cases h
    have hn := needs_of_not_kept (Bool.eq_false_iff.mpr hk)
    refine ⟨.record _ _ fun hne => ?_, .retire _ fun found hf => ?_, trivial⟩
    · cases hn.symm.trans hne
    · rw [TaskStore.write, AList.lookup_insert] at hf
      cases hf
      exact hn

theorem replaceTask_kept {expected skipIdentical}
    (h : env.replaceTaskIfCurrent store record expected skipIdentical = .ok writes) :
    AllKept store writes := by
  obtain ⟨existing, hr, h⟩ := of_bind h
  obtain ⟨hf, hid⟩ := readTask_ok hr
  split at h
  · split at h
    · exact (ensure_kept h).1
    · cases h
      trivial
  · split at h
    · exact sync_kept (by rw [hid]; exact hf) h
    · exact publishReplacement_kept h

theorem refreshTask_kept : AllKept store (env.refreshTask store taskId) := by
  unfold IndexEnv.refreshTask
  split
  · trivial
  · rename_i record hr
    obtain ⟨hf, hid⟩ := readTask_ok hr
    cases hs : env.syncActiveTaskIndex store record with
    | error error => trivial
    | ok writes => exact sync_kept (by rw [hid]; exact hf) hs

theorem refreshPage_kept (taskIds : List TaskId) :
    AllKept store (env.refreshPage store taskIds) := by
  induction taskIds generalizing store with
  | nil => trivial
  | cons taskId rest ih => exact (allKept_append _ _).mpr ⟨refreshTask_kept, ih⟩

theorem rebuildTask_kept (name : String) : AllKept store (env.rebuildTask store name) := by
  unfold IndexEnv.rebuildTask
  split
  · trivial
  · rename_i record hf
    split
    · cases hen : env.ensureActiveTaskIndex store record.info.taskId with
      | error error => trivial
      | ok writes => exact (ensure_kept hen).1
    · trivial

theorem rebuildPage_kept (names : List String) : AllKept store (env.rebuildPage store names) := by
  induction names generalizing store with
  | nil => trivial
  | cons name rest ih => exact (allKept_append _ _).mpr ⟨rebuildTask_kept name, ih⟩

end

/-! ## Runs -/

inductive TaskOp where
  | createTask (record : LocalTaskRecord)
  | replaceTask (replacement : LocalTaskRecord) (expected : Option LocalTaskRecord)
      (skipIdentical : Bool)
  | removeTaskSubmissionRecord (taskId : TaskId)
  | refreshActiveTaskIndex (taskIds : List TaskId) (maxTasksPerTick : Nat)
  | bootstrapActiveTaskIndex
  | selectActiveTaskIds (maxTasksPerTick : Nat)

def TaskOp.writes (env : IndexEnv) (store : TaskStore) : TaskOp →
    Except WorkerError (List TaskWrite)
  | .createTask record => env.createTask store record
  | .replaceTask replacement expected skipIdentical =>
    env.replaceTaskIfCurrent store replacement expected skipIdentical
  | .removeTaskSubmissionRecord taskId => .ok (IndexEnv.removeTaskSubmissionRecord taskId)
  | .refreshActiveTaskIndex taskIds maxTasksPerTick =>
    env.refreshActiveTaskIndex store taskIds maxTasksPerTick
  | .bootstrapActiveTaskIndex => env.bootstrapActiveTaskIndex store
  | .selectActiveTaskIds maxTasksPerTick => .ok (env.selectActiveTaskIds store maxTasksPerTick).2

/-- A call returns, or its process dies after some of its writes. Calls hold the state lock. -/
inductive TaskStore.Step : TaskStore → TaskStore → Prop
  | wrote {store : TaskStore} (env : IndexEnv) (op : TaskOp) {writes kept : List TaskWrite}
      (returned : op.writes env store = .ok writes) (cut : kept <+: writes) :
      TaskStore.Step store (store.writeAll kept)

section
variable {store store' : TaskStore} {env : IndexEnv}

theorem TaskOp.kept {op : TaskOp} {writes : List TaskWrite}
    (h : op.writes env store = .ok writes) : AllKept store writes := by
  cases op with
  | createTask record => exact createTask_kept h
  | replaceTask replacement expected skipIdentical => exact replaceTask_kept h
  | removeTaskSubmissionRecord taskId =>
    cases h
    exact ⟨.removeRecord _, trivial⟩
  | refreshActiveTaskIndex taskIds maxTasksPerTick =>
    obtain ⟨queued, -, hw⟩ := of_bind h
    cases hw
    exact refreshPage_kept _
  | bootstrapActiveTaskIndex =>
    simp only [TaskOp.writes, IndexEnv.bootstrapActiveTaskIndex] at h
    split at h
    · cases h
      trivial
    · obtain ⟨queued, -, hw⟩ := of_bind h
      cases hw
      exact (allKept_append _ _).mpr ⟨rebuildPage_kept _, .bootstrapped, trivial⟩
  | selectActiveTaskIds maxTasksPerTick =>
    cases h
    simp only [IndexEnv.selectActiveTaskIds]
    cases ((IndexEnv.rotateFromCursor store.cursor store.activeNames).take
      (max maxTasksPerTick 1)).getLast? with
    | none => trivial
    | some last => exact ⟨.cursor last, trivial⟩

theorem TaskStore.Step.indexed (hs : TaskStore.Step store store') (h : store.Indexed) :
    store'.Indexed := by
  cases hs with
  | wrote env op returned cut =>
    obtain ⟨rest, rfl⟩ := cut
    exact ((allKept_append _ _).mp (TaskOp.kept returned)).1.indexed h

theorem indexed_of_run (hr : ReflTransGen TaskStore.Step .empty store) : store.Indexed := by
  refine Reach.invariant (fun _ _ h hs => hs.indexed h) ?_ hr
  intro name record hf
  cases hf

end

/-! ## The runners found through the index -/

section
variable {store : TaskStore} {record : LocalTaskRecord}

theorem mem_listTasks : record ∈ store.listTasks ↔
    ∃ name, store.tasks.lookup name = some record := by
  simp only [TaskStore.listTasks, TaskStore.taskNames, mem_filterMap, Finset.mem_sort, mem_toFinset]
  refine ⟨fun ⟨name, _, hf⟩ => ⟨name, hf⟩, fun ⟨name, hf⟩ => ⟨name, ?_, hf⟩⟩
  rw [← AList.mem_keys, ← AList.lookup_isSome, hf]
  rfl

theorem mem_occupancy_iff (h : store.Indexed) (hr : record.runner.isSome = true) :
    record ∈ store.occupancyTaskRecords ↔ record ∈ store.listTasks := by
  unfold TaskStore.occupancyTaskRecords
  split
  · rw [mem_listTasks]
    simp only [TaskStore.activeNames, mem_filterMap, Finset.mem_sort]
    refine ⟨fun ⟨name, _, hf⟩ => ⟨name, hf⟩, fun ⟨name, hf⟩ => ⟨name, ?_, hf⟩⟩
    refine h name record hf ?_
    unfold taskRecordNeedsActiveIndex
    split <;> simp [hr]
  · rfl

variable {world : World} {tasks tasks' : List LocalTaskRecord}

theorem liveRunner_isNone_congr
    (h : ∀ task, task.runner.isSome = true → (task ∈ tasks ↔ task ∈ tasks')) (turnId : TurnId) :
    (liveRunnerForCurrentTurn { world with occupancyTasks := tasks } turnId).isNone =
      (liveRunnerForCurrentTurn { world with occupancyTasks := tasks' } turnId).isNone := by
  have hon : ∀ {first second : List LocalTaskRecord},
      (∀ task, task.runner.isSome = true → task ∈ second → task ∈ first) →
      (liveRunnerForCurrentTurn { world with occupancyTasks := first } turnId).isNone = true →
      (liveRunnerForCurrentTurn { world with occupancyTasks := second } turnId).isNone = true := by
    intro first second hs hn
    simp only [liveRunnerForCurrentTurn, Option.isNone_iff_eq_none, findSome?_eq_none_iff] at hn ⊢
    intro task ht
    cases hr : task.runner with
    | none => rfl
    | some runner =>
      have hf := hn task (hs task (by simp [hr]) ht)
      rw [hr] at hf
      exact hf
  rw [Bool.eq_iff_iff]
  exact ⟨hon fun task hr => (h task hr).mpr, hon fun task hr => (h task hr).mp⟩

theorem occupiedRunnerSlots_congr
    (h : ∀ task, task.runner.isSome = true → (task ∈ tasks ↔ task ∈ tasks'))
    (queue : QueueSnapshot) (exclude : Option ProcessIdentity)
    (reserving : Option (JobId × ProcessIdentity)) :
    occupiedRunnerSlots { world with occupancyTasks := tasks } queue exclude reserving =
      occupiedRunnerSlots { world with occupancyTasks := tasks' } queue exclude reserving := by
  have hru : (tasks.filterMap (·.runner)).toFinset = (tasks'.filterMap (·.runner)).toFinset := by
    ext runner
    simp only [mem_toFinset, mem_filterMap]
    constructor
    · intro ⟨task, hm, hr⟩
      exact ⟨task, (h task (by simp [hr])).mp hm, hr⟩
    · intro ⟨task, hm, hr⟩
      exact ⟨task, (h task (by simp [hr])).mpr hm, hr⟩
  have hre : ∀ entry holder,
      recoveredController { world with occupancyTasks := tasks } reserving entry holder =
        recoveredController { world with occupancyTasks := tasks' } reserving entry holder := by
    intro entry holder
    unfold recoveredController
    congr 1
    funext pair
    obtain ⟨jobId, reserver⟩ := pair
    dsimp only
    rw [liveRunner_isNone_congr h]
  unfold occupiedRunnerSlots
  dsimp only
  rw [toFinset_append, toFinset_append, toFinset_filter, toFinset_filter, hru]
  simp only [hre]
  rfl

end

/-! ## The windows of the ticks -/

section
variable {store : TaskStore} {env : IndexEnv} {b : Nat}

theorem rotateFromCursor_eq_past (last : Option String) (sorted : List String) :
    IndexEnv.rotateFromCursor last sorted = Rotation.past last sorted := by
  cases last with
  | none => simp [IndexEnv.rotateFromCursor, Rotation.past, Rotation.start]
  | some last =>
    simp only [IndexEnv.rotateFromCursor, Rotation.past, Rotation.start]
    cases sorted.findIdx? fun name => last < name <;> simp

theorem attempted_names (hb : 1 ≤ b) : (env.selectActiveTaskIds store b).1.attempted.map Prod.fst =
      (Rotation.past store.cursor store.activeNames).take b := by
  simp only [IndexEnv.selectActiveTaskIds, rotateFromCursor_eq_past, Nat.max_eq_left hb,
    List.map_map]
  exact map_id _

theorem windows_attempt {names : List String} (hb : 1 ≤ b) {envs : Nat → IndexEnv}
    {before : Nat → TaskStore}
    (ht : ∀ k, k < names.length ⌈/⌉ b → (before k).activeNames = names ∧ (before (k + 1)).cursor =
        ((before k).writeAll ((envs k).selectActiveTaskIds (before k) b).2).cursor) :
    ∀ name ∈ names, ∃ k, k < names.length ⌈/⌉ b ∧
      name ∈ ((envs k).selectActiveTaskIds (before k) b).1.attempted.map Prod.fst := by
  intro name hn
  have hs : 0 < names.length ⌈/⌉ b → names.Pairwise (· < ·) := by
    intro hf
    rw [← (ht 0 hf).1]
    exact (Finset.sortedLT_sort (before 0).receipts).pairwise
  have hne : ∀ k, k < names.length ⌈/⌉ b → ∀ last,
      ((Rotation.past (before k).cursor names).take b).getLast? = some last →
        (before (k + 1)).cursor = some last := by
    intro k hk last hl
    obtain ⟨hna, hc⟩ := ht k hk
    rw [hc]
    simp only [IndexEnv.selectActiveTaskIds, rotateFromCursor_eq_past, Nat.max_eq_left hb, hna, hl]
    rfl
  obtain ⟨k, hk, hw⟩ := Rotation.windows_cover_ceilDiv hb hs
    (fun k => (before k).cursor) hne name hn
  refine ⟨k, hk, ?_⟩
  rw [attempted_names hb, (ht k hk).1]
  exact hw

end

/-- **The index of active tasks is complete.** Wherever a run stops, each record that needs a
receipt has one, and the slots counted through the index are those counted over all records.
And from any cursor on, over `n` receipts that stay the same, `n / b` ticks of `b` receipts
each, rounded up, attempt every one; other calls may run between the ticks. -/
theorem active_index_complete {store : TaskStore}
    (hrun : ReflTransGen TaskStore.Step .empty store) :
    (∀ name record, store.tasks.lookup name = some record →
      taskRecordNeedsActiveIndex record = true → name ∈ store.receipts) ∧
    (∀ (world : World) queue exclude reserving,
      occupiedRunnerSlots { world with occupancyTasks := store.occupancyTaskRecords } queue exclude
          reserving =
        occupiedRunnerSlots { world with occupancyTasks := store.listTasks } queue exclude
          reserving) ∧
    ∀ (names : List String) (b : Nat) (envs : Nat → IndexEnv) (before : Nat → TaskStore), 1 ≤ b →
      (∀ k, k < names.length ⌈/⌉ b → (before k).activeNames = names ∧ (before (k + 1)).cursor =
          ((before k).writeAll ((envs k).selectActiveTaskIds (before k) b).2).cursor) →
      ∀ name ∈ names, ∃ k, k < names.length ⌈/⌉ b ∧
        name ∈ ((envs k).selectActiveTaskIds (before k) b).1.attempted.map Prod.fst := by
  have hin := indexed_of_run hrun
  refine ⟨hin, fun world queue exclude reserving => ?_,
    fun names b envs before hb ht => windows_attempt hb ht⟩
  exact occupiedRunnerSlots_congr (fun task hr => mem_occupancy_iff hin hr) queue
    exclude reserving

def openIndex : IndexEnv :=
  ⟨.ok [], fun _ => false, fun _ => true, fun _ => false, fun _ => .ok ⟨1⟩⟩

def newTask (id : TaskId) : LocalTaskRecord :=
  { info := ⟨id, none, "", ""⟩, status := ⟨.active, none, none, []⟩, runner := none
    abandonCode := none, submissionIntentTurnId := none, submissionRollbackTurnId := none
    fetchedHead := none, autoContinueIntent := none }

def TaskStore.create (store : TaskStore) (id : TaskId) : TaskStore :=
  store.writeAll [.receipt (taskFileName id), .record (taskFileName id) (newTask id)]

/-- The stores before ticks of one receipt each. -/
def TaskStore.ticking (store : TaskStore) : Nat → TaskStore
  | 0 => store
  | k + 1 => { store with cursor := ((store.ticking k).writeAll
      (openIndex.selectActiveTaskIds (store.ticking k) 1).2).cursor }

/-- Two new tasks have receipts, and ticks of one receipt each attempt both. -/
theorem active_index_complete_created :
    let store := (TaskStore.empty.create ⟨1⟩).create ⟨2⟩
    ReflTransGen TaskStore.Step .empty store ∧ ∀ id, id = ⟨1⟩ ∨ id = ⟨2⟩ →
      taskFileName id ∈ store.receipts ∧ ∃ k, k < store.activeNames.length ⌈/⌉ 1 ∧
        taskFileName id ∈
          (openIndex.selectActiveTaskIds (store.ticking k) 1).1.attempted.map Prod.fst := by
  intro store
  have hf : taskFileName ⟨2⟩ ≠ taskFileName ⟨1⟩ := by decide +kernel
  have h₁ : TaskStore.Step .empty (TaskStore.empty.create ⟨1⟩) :=
    .wrote openIndex (.createTask (newTask ⟨1⟩)) rfl (prefix_refl _)
  have hl : (TaskStore.empty.create ⟨1⟩).tasks.lookup (taskFileName ⟨2⟩) = none :=
    AList.lookup_insert_ne hf
  have h₂ : TaskStore.Step (TaskStore.empty.create ⟨1⟩) store :=
    .wrote openIndex (.createTask (newTask ⟨2⟩)) (by
      unfold TaskOp.writes IndexEnv.createTask
      simp only [newTask, hl]
      rfl) (prefix_refl _)
  have hr : ReflTransGen TaskStore.Step .empty store := (ReflTransGen.single h₁).tail h₂
  obtain ⟨hin, -, ht⟩ := active_index_complete hr
  have hs (id) (hid : id = ⟨1⟩ ∨ id = ⟨2⟩) :
      store.tasks.lookup (taskFileName id) = some (newTask id) := by
    rcases hid with rfl | rfl
    · exact (AList.lookup_insert_ne hf.symm).trans (AList.lookup_insert _)
    · exact AList.lookup_insert _
  refine ⟨hr, fun id hid => ?_⟩
  have hm := hin _ _ (hs id hid) rfl
  refine ⟨hm, ht store.activeNames 1 (fun _ => openIndex) store.ticking le_rfl
    (fun k _ => ⟨?_, rfl⟩) _ ((Finset.mem_sort _).mpr hm)⟩
  cases k <;> rfl
end MacWorker.Queue
