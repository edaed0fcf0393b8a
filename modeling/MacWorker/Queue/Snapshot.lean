import MacWorker.Queue.Entry
import Mathlib.Data.List.Pairwise

/-! # The stored queue

The queue file is a list of rows and the next free queue id. It is checked whenever it is
read or written, by one loop that carries the last id, the last timestamp, the jobs seen
and the cap each run declared. `QueueSnapshot.validate_iff` turns that loop into pairwise
facts about rows, and `updateQueue_eq_ok` says what every published update has in
common. -/
namespace MacWorker.Queue
open Fallible List

structure QueueSnapshot where
  nextId : Nat
  entries : List QueueEntry
  deriving DecidableEq

def QueueSnapshot.empty : QueueSnapshot := ⟨1, []⟩

/-- The cap a row declares for its run, checked against the caps seen so far. -/
def declareRunCap (runCaps : List (RunId × Nat)) (entry : QueueEntry) :
    Except WorkerError (List (RunId × Nat)) :=
  match entry.run with
  | none => .ok runCaps
  | some run => do
    ensure (∀ existing ∈ runCaps.lookup run.runId, existing = run.maxParallel)
      (.protocol "queue contains conflicting maximum parallelism for one run ID")
    return (run.runId, run.maxParallel) :: runCaps

def validateEntries (nextId : Nat) : (previousId previousTimestamp : Nat) → (jobs : List JobId) →
    (runCaps : List (RunId × Nat)) → List QueueEntry → Except WorkerError Unit
  | _, _, _, _, [] => .ok ()
  | previousId, previousTimestamp, jobs, runCaps, entry :: rest => do
    entry.validate
    ensure (entry.queueId ≠ 0 ∧ previousId < entry.queueId ∧ entry.queueId < nextId)
      (.protocol "queue IDs are not strictly increasing below next ID")
    ensure (previousTimestamp ≤ entry.enqueuedAtMillis)
      (.protocol "queue timestamps are not monotonic")
    ensure (entry.jobId ∉ jobs) (.protocol "queue contains a duplicate job ID")
    let runCaps ← declareRunCap runCaps entry
    validateEntries nextId entry.queueId entry.enqueuedAtMillis (entry.jobId :: jobs) runCaps rest

def QueueSnapshot.validate (queue : QueueSnapshot) : Except WorkerError Unit :=
  validateEntries queue.nextId 0 0 [] [] queue.entries

/-! ## Well-formed queues -/

def CapsAgree (a b : QueueEntry) : Prop :=
  ∀ r s, a.run = some r → b.run = some s → r.runId = s.runId → r.maxParallel = s.maxParallel

theorem CapsAgree.refl (a : QueueEntry) : CapsAgree a a := by
  intro r s hr hs _
  cases hr.symm.trans hs
  rfl

instance : Std.Symm CapsAgree where
  symm _ _ h r s hr hs he := (h s r hs hr he.symm).symm

/-- What holds of a row `a` that stands before a row `b`. -/
structure Precedes (a b : QueueEntry) : Prop where
  ids : a.queueId < b.queueId
  times : a.enqueuedAtMillis ≤ b.enqueuedAtMillis
  jobs : a.jobId ≠ b.jobId
  caps : CapsAgree a b

structure Listed (nextId : Nat) (entry : QueueEntry) : Prop where
  valid : entry.Valid
  positive : entry.queueId ≠ 0
  below : entry.queueId < nextId

structure QueueSnapshot.WellFormed (queue : QueueSnapshot) : Prop where
  listed : ∀ entry ∈ queue.entries, Listed queue.nextId entry
  ordered : queue.entries.Pairwise Precedes

/-- A row's cap agrees with the caps recorded so far. -/
def AgreesWith (runCaps : List (RunId × Nat)) (entry : QueueEntry) : Prop :=
  ∀ run, entry.run = some run → ∀ m, runCaps.lookup run.runId = some m → m = run.maxParallel

theorem declareRunCap_ok {runCaps runCaps' entry} (h : declareRunCap runCaps entry = .ok runCaps') :
    AgreesWith runCaps entry ∧
      ∀ other, AgreesWith runCaps' other ↔ AgreesWith runCaps other ∧ CapsAgree entry other := by
  unfold declareRunCap at h
  cases hr : entry.run with
  | none =>
    rw [hr] at h
    cases h
    refine ⟨fun run hru => ?_, fun other => ⟨fun ho => ⟨ho, fun r s hru => ?_⟩, fun ho => ho.1⟩⟩
    · rw [hr] at hru; cases hru
    · rw [hr] at hru; cases hru
  | some run =>
    simp only [hr, then_eq_ok, ensure_eq_ok, pure_eq_ok, Option.mem_def] at h
    obtain ⟨ha, rfl⟩ := h
    refine ⟨fun r hru m hm => ?_, fun other => ⟨fun ho => ⟨fun r hru m hm => ?_, ?_⟩, ?_⟩⟩
    · cases hr.symm.trans hru
      exact ha m hm
    · by_cases he : r.runId = run.runId
      · have hc := ho r hru run.maxParallel (by simp [he])
        rw [← hc]
        exact ha m (he ▸ hm)
      · exact ho r hru m (by simpa [lookup_cons, beq_eq_false_iff_ne.mpr he] using hm)
    · intro r s hru hs he
      cases hr.symm.trans hru
      exact ho s hs run.maxParallel (by simp [he])
    · intro ho r hru m hm
      by_cases he : r.runId = run.runId
      · have hm : run.maxParallel = m := by simpa [lookup_cons, he] using hm
        rw [← hm]
        exact ho.2 run r hr hru he.symm
      · exact ho.1 r hru m (by simpa [lookup_cons, beq_eq_false_iff_ne.mpr he] using hm)

theorem declareRunCap_of {runCaps entry} (h : AgreesWith runCaps entry) :
    ∃ runCaps', declareRunCap runCaps entry = .ok runCaps' := by
  unfold declareRunCap
  cases hr : entry.run with
  | none => exact ⟨runCaps, rfl⟩
  | some run =>
    refine ⟨_, then_eq_ok.mpr ⟨ensure_of ?_, rfl⟩⟩
    exact h run hr

/-- The loop accepts the rest of a queue exactly when its rows are well formed
among themselves and against everything the loop has recorded. -/
theorem validateEntries_iff {nextId entries} :
    ∀ {previousId previousTimestamp : Nat} {jobs : List JobId} {runCaps : List (RunId × Nat)},
      validateEntries nextId previousId previousTimestamp jobs runCaps entries = .ok () ↔
        (∀ entry ∈ entries, Listed nextId entry) ∧ entries.Pairwise Precedes ∧
        ∀ entry ∈ entries, previousId < entry.queueId ∧
          previousTimestamp ≤ entry.enqueuedAtMillis ∧ entry.jobId ∉ jobs ∧
          AgreesWith runCaps entry := by
  induction entries with
  | nil => intros; simp [validateEntries]
  | cons entry rest ih =>
    intro previousId previousTimestamp jobs runCaps
    unfold validateEntries
    simp only [then_eq_ok, ensure_eq_ok, bind_eq_ok (x := declareRunCap _ _), ih,
      QueueEntry.validate_iff, mem_cons, forall_eq_or_imp, pairwise_cons, not_or]
    constructor
    · rintro ⟨hv, hid, hts, hj, caps, hc, hl, hor, hr⟩
      obtain ⟨ha, hs⟩ := declareRunCap_ok hc
      refine ⟨⟨⟨hv, hid.1, hid.2.2⟩, hl⟩, ⟨fun other ho => ?_, hor⟩,
        ⟨hid.2.1, hts, hj, ha⟩, fun other ho => ?_⟩
      · obtain ⟨hlt, hle, hne, hag⟩ := hr other ho
        exact ⟨hlt, hle, fun he => hne.1 he.symm, ((hs other).mp hag).2⟩
      · obtain ⟨hlt, hle, hne, hag⟩ := hr other ho
        exact ⟨by omega, by omega, hne.2, ((hs other).mp hag).1⟩
    · rintro ⟨⟨hl, hre⟩, ⟨hbe, hor⟩, ⟨hlt, hle, hj, ha⟩, hr⟩
      obtain ⟨caps, hc⟩ := declareRunCap_of ha
      refine ⟨hl.valid, ⟨hl.positive, hlt, hl.below⟩, hle, hj, caps, hc,
        hre, hor, fun other ho => ?_⟩
      have hb := hbe other ho
      obtain ⟨-, -, hn, hag⟩ := hr other ho
      exact ⟨hb.ids, hb.times, ⟨fun he => hb.jobs he.symm, hn⟩,
        ((declareRunCap_ok hc).2 other).mpr ⟨hag, hb.caps⟩⟩

variable {queue : QueueSnapshot}

/-- **The queue check accepts exactly the well-formed queues.** -/
theorem QueueSnapshot.validate_iff : queue.validate = .ok () ↔ queue.WellFormed := by
  unfold QueueSnapshot.validate
  rw [validateEntries_iff]
  refine ⟨fun ⟨hl, ho, _⟩ => ⟨hl, ho⟩, fun h => ⟨h.listed, h.ordered, fun entry he => ?_⟩⟩
  have hp := (h.listed entry he).positive
  exact ⟨by omega, Nat.zero_le _, by simp, fun _ _ m hm => by simp at hm⟩

instance (queue : QueueSnapshot) : Decidable queue.WellFormed :=
  decidable_of_iff _ QueueSnapshot.validate_iff

theorem queue_caps (hq : queue.WellFormed) {a b} (ha : a ∈ queue.entries) (hb : b ∈ queue.entries)
    {r s} (hr : a.run = some r) (hs : b.run = some s) (hid : r.runId = s.runId) :
    r.maxParallel = s.maxParallel := by
  have hag := List.Pairwise.forall_of_forall (fun x _ => CapsAgree.refl x)
    (hq.ordered.imp fun h => h.caps)
  exact hag ha hb r s hr hs hid

theorem jobs_before (hq : queue.WellFormed) {before after row}
    (he : queue.entries = before ++ row :: after) :
    ∀ other ∈ before, (other.jobId == row.jobId) = false := by
  intro other ho
  have hor := hq.ordered
  rw [he, pairwise_append] at hor
  have hne := (hor.2.2 other ho row (by simp)).jobs
  simpa using hne

theorem splitFirst_row (hq : queue.WellFormed) {before after row}
    (he : queue.entries = before ++ row :: after) :
    splitFirst (·.jobId == row.jobId) queue.entries = some (before, row, after) := by
  rw [he]
  exact splitFirst_of (by simp) (jobs_before hq he)

theorem split_unique (hq : queue.WellFormed) {before after before' after' row row'}
    (he : queue.entries = before ++ row :: after) (he' : queue.entries = before' ++ row' :: after')
    (hj : row.jobId = row'.jobId) :
    before = before' ∧ row = row' ∧ after = after' := by
  have h := splitFirst_row hq he
  rw [hj, splitFirst_row hq he'] at h
  simp only [Option.some.injEq, Prod.mk.injEq] at h
  exact ⟨h.1.symm, h.2.1.symm, h.2.2.symm⟩

/-! ## Changing one row -/

theorem Precedes.congr {a b a' b'} (h : Precedes a b) (ha : a.SameRow a') (hb : b.SameRow b') :
    Precedes a' b' where
  ids := by rw [ha.queueId, hb.queueId]; exact h.ids
  times := by rw [ha.enqueued, hb.enqueued]; exact h.times
  jobs := by rw [ha.jobId, hb.jobId]; exact h.jobs
  caps := fun r s hr hs => h.caps r s (ha.run ▸ hr) (hb.run ▸ hs)

/-- **A valid new version of a row keeps the queue well formed.** -/
theorem QueueSnapshot.WellFormed.set (hq : queue.WellFormed) {i row} (row' : QueueEntry)
    (hi : queue.entries[i]? = some row) (hs : row.SameRow row') (hv : row'.Valid) :
    QueueSnapshot.WellFormed { queue with entries := queue.entries.set i row' } := by
  obtain ⟨hlt, hg⟩ := List.getElem?_eq_some_iff.mp hi
  obtain ⟨before, after, he, hle, hse⟩ := exists_of_set hlt
  rw [hg] at he
  obtain ⟨hl, hor⟩ := hq
  rw [he] at hl hor
  rw [pairwise_append, pairwise_cons] at hor
  obtain ⟨hb, ⟨hra, ha⟩, hal⟩ := hor
  rw [hse]
  refine ⟨fun entry hm => ?_, ?_⟩
  · rcases mem_append.mp hm with hm | hm
    · exact hl entry (by simp [hm])
    · rcases mem_cons.mp hm with rfl | hm
      · have hol := hl row (by simp)
        exact ⟨hv, hs.queueId ▸ hol.positive, hs.queueId ▸ hol.below⟩
      · exact hl entry (by simp [hm])
  · refine pairwise_append.mpr ⟨hb, pairwise_cons.mpr ⟨fun x hx => ?_, ha⟩, ?_⟩
    · exact (hra x hx).congr hs (.refl x)
    · intro x hx y hy
      rcases mem_cons.mp hy with rfl | hy
      · exact (hal x hx row (by simp)).congr (.refl x) hs
      · exact hal x hx y (by simp [hy])

/-! ## Updates under the queue lock -/

def requireQueueClient (queue : QueueSnapshot) (clientId : ClientId) : Except WorkerError Unit :=
  ensure (∀ entry ∈ queue.entries, entry.clientId = clientId)
    (.queue "QUEUE_CLIENT_MISMATCH" "queue contains a row for another client identity")

/-- Read the queue, change it, and publish it if it is still well formed. A
failed update publishes nothing. -/
def updateQueue {β : Type} (clientId : ClientId) (queue : QueueSnapshot)
    (update : QueueSnapshot → Except WorkerError (QueueSnapshot × β)) :
    Except WorkerError (QueueSnapshot × β) := do
  queue.validate
  requireQueueClient queue clientId
  let (next, result) ← update queue
  next.validate
  requireQueueClient next clientId
  return (next, result)

/-- A well-formed queue of one client: what is on disk between two updates. -/
structure Stored (clientId : ClientId) (queue : QueueSnapshot) : Prop where
  wellFormed : queue.WellFormed
  client : ∀ entry ∈ queue.entries, entry.clientId = clientId

instance (clientId : ClientId) (queue : QueueSnapshot) : Decidable (Stored clientId queue) :=
  decidable_of_iff (queue.WellFormed ∧ ∀ entry ∈ queue.entries, entry.clientId = clientId)
    ⟨fun h => ⟨h.1, h.2⟩, fun h => ⟨h.1, h.2⟩⟩

/-- **Every published queue is well formed.** An update goes through exactly
when the queue was well formed, the change itself succeeds, and the result is
well formed again. -/
theorem updateQueue_eq_ok {β : Type} {clientId : ClientId} {queue queue' : QueueSnapshot}
    {update : QueueSnapshot → Except WorkerError (QueueSnapshot × β)} {result : β} :
    updateQueue clientId queue update = .ok (queue', result) ↔
      Stored clientId queue ∧ update queue = .ok (queue', result) ∧ Stored clientId queue' := by
  unfold updateQueue requireQueueClient
  simp only [then_eq_ok, QueueSnapshot.validate_iff, ensure_eq_ok, bind_eq_ok (x := update _),
    pure_eq_ok, Prod.exists, Prod.mk.injEq]
  constructor
  · rintro ⟨hq, hc, next, r, hu, hn, hcn, rfl, rfl⟩
    exact ⟨⟨hq, hc⟩, hu, ⟨hn, hcn⟩⟩
  · rintro ⟨hq, hu, hn⟩
    exact ⟨hq.wellFormed, hq.client, queue', result, hu, hn.wellFormed, hn.client, rfl, rfl⟩

def updateRow {β : Type} (clientId : ClientId) (queue : QueueSnapshot) (jobId : JobId)
    (change : QueueEntry → Except WorkerError (QueueEntry × β)) :
    Except WorkerError (QueueSnapshot × β) :=
  updateQueue clientId queue fun queue => do
    let (entries, result) ← updateFirst (·.jobId == jobId)
      (.queue "QUEUE_NOT_FOUND" "queue row was not found") change queue.entries
    return ({ queue with entries }, result)

theorem updateRow_ok {β : Type} {clientId : ClientId} {queue queue' : QueueSnapshot} {jobId : JobId}
    {change : QueueEntry → Except WorkerError (QueueEntry × β)} {result : β}
    (h : updateRow clientId queue jobId change = .ok (queue', result)) :
    Stored clientId queue ∧ Stored clientId queue' ∧ ∃ before row row' after,
      queue.entries = before ++ row :: after ∧ row.jobId = jobId ∧
      change row = .ok (row', result) ∧
      queue' = { queue with entries := before ++ row' :: after } := by
  obtain ⟨hq, hu, hn⟩ := updateQueue_eq_ok.mp h
  obtain ⟨⟨entries, r⟩, hr, he⟩ := of_bind hu
  obtain ⟨before, row, row', after, hb, he', hj, hc⟩ := updateFirst_ok hr
  simp only [pure_eq_ok, Prod.mk.injEq] at he
  obtain ⟨rfl, rfl⟩ := he
  exact ⟨hq, hn, before, row, row', after, hb, by simpa using hj, hc, by rw [he']⟩

def QueueSnapshot.row (queue : QueueSnapshot) (jobId : JobId) : Option QueueEntry :=
  queue.entries.find? (·.jobId == jobId)

theorem QueueSnapshot.WellFormed.row_of_split (hq : queue.WellFormed) {before after row}
    (he : queue.entries = before ++ row :: after) : queue.row row.jobId = some row := by
  refine find?_eq_some_iff_append.mpr ⟨by simp, before, after, he, fun other ho => ?_⟩
  rw [jobs_before hq he other ho]
  rfl

theorem QueueSnapshot.WellFormed.row_of_mem (hq : queue.WellFormed) {row}
    (h : row ∈ queue.entries) :
    queue.row row.jobId = some row := by
  obtain ⟨before, after, he⟩ := append_of_mem h
  exact hq.row_of_split he

theorem updateRow_row {β : Type} {clientId : ClientId} {queue queue' : QueueSnapshot}
    {jobId : JobId} {change : QueueEntry → Except WorkerError (QueueEntry × β)} {result : β}
    (hs : ∀ row row' r, change row = .ok (row', r) → row.SameRow row')
    (h : updateRow clientId queue jobId change = .ok (queue', result)) :
    queue'.WellFormed ∧ ∃ row row', queue.row jobId = some row ∧
      change row = .ok (row', result) ∧ queue'.row jobId = some row' := by
  obtain ⟨hq, hq', before, row, row', after, he, hj, hc, rfl⟩ := updateRow_ok h
  have hj' : row'.jobId = jobId := (hs row row' result hc).jobId.trans hj
  refine ⟨hq'.wellFormed, row, row', hj ▸ hq.wellFormed.row_of_split he, hc, ?_⟩
  exact hj' ▸ hq'.wellFormed.row_of_split rfl

end MacWorker.Queue
