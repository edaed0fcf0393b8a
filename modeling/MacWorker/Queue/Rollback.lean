import Mathlib.Data.List.TakeWhile
import MacWorker.Queue.Operations

/-! # Taking a row out and putting it back

A failed submission removes its row from the queue and may later have to put
the same row back. In between, anything can happen to the queue. The row keeps
its queue id, so it returns to its old place; whether the queue is then still
well formed depends on the rows that were queued while it was away. -/
namespace MacWorker.Queue
open Fallible Relation List

def QueueStep (clientId : ClientId) (queue queue' : QueueSnapshot) : Prop :=
  ∃ (world : World) (op : QueueOp), world.clientId = clientId ∧ op.apply world queue = .ok queue'

section
variable {clientId : ClientId} {queue queue' : QueueSnapshot}

theorem QueueStep.stored (h : QueueStep clientId queue queue') : Stored clientId queue' := by
  obtain ⟨world, op, rfl, ha⟩ := h
  exact (op.apply_applied ha).stored'

theorem QueueStep.nextId_le (h : QueueStep clientId queue queue') :
    queue.nextId ≤ queue'.nextId := by
  obtain ⟨world, op, rfl, ha⟩ := h
  cases (op.apply_applied ha).edit with
  | revised hr => exact hr.nextId.ge
  | removed _ _ published => rw [published]
  | appended offered published => rw [published]; exact Nat.le_succ _
  | started mem room place => exact place.nextId.ge
  | resumed bypasses place => exact place.nextId.ge
  | restored bypasses named published => rw [published]

theorem stored_of_run (hq : Stored clientId queue)
    (hr : ReflTransGen (QueueStep clientId) queue queue') : Stored clientId queue' :=
  Reach.invariant (fun _ _ _ hs => hs.stored) hq hr

theorem nextId_le_of_run (hr : ReflTransGen (QueueStep clientId) queue queue') :
    queue.nextId ≤ queue'.nextId :=
  Reach.invariant (p := fun q => queue.nextId ≤ q.nextId)
    (fun _ _ h hs => h.trans hs.nextId_le) (Nat.le_refl _) hr

end

/-! ## Insertion by queue id -/

section
variable {queue : QueueSnapshot} {entry : QueueEntry}

/-- The row can stand between the others: each of them is before it or after it. -/
def Fits (entry : QueueEntry) (queue : QueueSnapshot) : Prop :=
  ∀ row ∈ queue.entries, Precedes row entry ∨ Precedes entry row

theorem mem_takeWhile_id {row} (h : row ∈ queue.entries.takeWhile (·.queueId ≤ entry.queueId)) :
    row ∈ queue.entries ∧ row.queueId ≤ entry.queueId :=
  ⟨(takeWhile_sublist _).subset h, by simpa using mem_takeWhile_imp h⟩

theorem mem_dropWhile_id (hq : queue.WellFormed) {row}
    (h : row ∈ queue.entries.dropWhile (·.queueId ≤ entry.queueId)) :
    row ∈ queue.entries ∧ entry.queueId < row.queueId := by
  refine ⟨(dropWhile_sublist _).subset h, ?_⟩
  have hor := hq.ordered.imp Precedes.ids
  generalize queue.entries = rows at h hor
  induction rows with
  | nil => simp at h
  | cons first rest ih =>
    rw [dropWhile_cons] at h
    split at h
    · exact ih h (pairwise_cons.mp hor).2
    · rename_i hf
      have hlt : entry.queueId < first.queueId := by simpa using hf
      rcases mem_cons.mp h with rfl | hr
      · exact hlt
      · exact hlt.trans ((pairwise_cons.mp hor).1 row hr)

theorem split_by_id (queue : QueueSnapshot) (entry : QueueEntry) :
    queue.entries.takeWhile (·.queueId ≤ entry.queueId) ++
      queue.entries.dropWhile (·.queueId ≤ entry.queueId) = queue.entries :=
  takeWhile_append_dropWhile

theorem mem_of_mem_insertById {row} (h : row ∈ insertById entry queue.entries) :
    row = entry ∨ row ∈ queue.entries := by
  rw [insertById, mem_append, mem_cons] at h
  rcases h with hb | rfl | ha
  · exact .inr (mem_takeWhile_id hb).1
  · exact .inl rfl
  · exact .inr ((dropWhile_sublist _).subset ha)

/-- **A row can be put back exactly where it fits.** -/
theorem insertById_wellFormed_iff (hq : queue.WellFormed) (hen : Listed queue.nextId entry) :
    QueueSnapshot.WellFormed { queue with entries := insertById entry queue.entries } ↔
      Fits entry queue := by
  refine ⟨fun h row hr => ?_, fun h => ⟨fun row hr => ?_, ?_⟩⟩
  · have hor := h.ordered
    rw [insertById, pairwise_append, pairwise_cons] at hor
    obtain ⟨-, ⟨ha, -⟩, hb⟩ := hor
    rw [← split_by_id queue entry, mem_append] at hr
    exact hr.imp (fun hm => hb row hm entry mem_cons_self) (ha row)
  · rcases mem_of_mem_insertById hr with rfl | hm
    · exact hen
    · exact hq.listed row hm
  · have hor := hq.ordered
    rw [← split_by_id queue entry, pairwise_append] at hor
    obtain ⟨hb, ha, hc⟩ := hor
    have hf : ∀ row ∈ queue.entries.takeWhile (·.queueId ≤ entry.queueId), Precedes row entry := by
      intro row hr
      obtain ⟨hm, hle⟩ := mem_takeWhile_id hr
      exact (h row hm).resolve_right fun hp => absurd hp.ids (by omega)
    have hl : ∀ row ∈ queue.entries.dropWhile (·.queueId ≤ entry.queueId), Precedes entry row := by
      intro row hr
      obtain ⟨hm, hlt⟩ := mem_dropWhile_id hq hr
      exact (h row hm).resolve_left fun hp => absurd hp.ids (by omega)
    refine pairwise_append.mpr ⟨hb, pairwise_cons.mpr ⟨hl, ha⟩, ?_⟩
    intro row hr other hot
    rcases mem_cons.mp hot with rfl | hot
    · exact hf row hr
    · exact hc row hr other hot

theorem insertById_others :
    (insertById entry queue.entries).filter (· ≠ entry) = queue.entries.filter (· ≠ entry) := by
  have hr := congrArg (List.filter (· ≠ entry)) (split_by_id queue entry)
  rw [filter_append] at hr
  rw [insertById, filter_append, filter_cons_of_neg (by simp), hr]

end

/-! ## The round trip -/

section
variable {world : World} {queue queue' : QueueSnapshot} {entry : QueueEntry}

/-- The row is back as it was and nothing else has moved. -/
structure Restored (entry : QueueEntry) (queue queue' : QueueSnapshot) : Prop where
  wellFormed : queue'.WellFormed
  present : entry ∈ queue'.entries
  others : queue'.entries.filter (· ≠ entry) = queue.entries.filter (· ≠ entry)
  ordered : queue'.entries.Pairwise fun a b => a.queueId < b.queueId
  nextId : queue'.nextId = queue.nextId

theorem Restored.of_wellFormed (hwf : queue'.WellFormed) (hm : entry ∈ queue'.entries)
    (hot : queue'.entries.filter (· ≠ entry) = queue.entries.filter (· ≠ entry))
    (hn : queue'.nextId = queue.nextId) : Restored entry queue queue' :=
  ⟨hwf, hm, hot, hwf.ordered.imp Precedes.ids, hn⟩

theorem removed_row {turnId}
    (h : removeTaskTurnForSubmissionRollback world queue turnId = .ok (queue', some entry)) :
    Stored world.clientId queue ∧ Stored world.clientId queue' ∧ entry ∈ queue.entries ∧
      queue'.nextId = queue.nextId := by
  unfold removeTaskTurnForSubmissionRollback removeRow onRow at h
  obtain ⟨hq, hu, hq'⟩ := updateQueue_eq_ok.mp h
  split at hu
  · cases hu
  · rename_i older row newer hs
    obtain ⟨he, -⟩ := splitFirst_some hs
    obtain ⟨⟨entries, removed⟩, hr, hrs⟩ := of_bind hu
    obtain ⟨-, hre⟩ := of_then hr
    cases hre
    cases hrs
    exact ⟨hq, hq', by simp [he], rfl⟩

theorem restore_iff (hq : Stored world.clientId queue) (hen : Listed queue.nextId entry)
    (hc : entry.clientId = world.clientId) :
    (∃ queue', restoreTaskTurnForSubmissionRollback world queue entry = .ok (queue', ()) ∧
      Restored entry queue queue') ↔ entry ∈ queue.entries ∨ Fits entry queue := by
  unfold restoreTaskTurnForSubmissionRollback
  simp only [then_eq_ok, ensure_eq_ok, updateQueue_eq_ok]
  refine ⟨?_, fun h => ?_⟩
  · rintro ⟨queue', ⟨-, -, hu, hq'⟩, hre⟩
    split at hu
    · cases hu
      exact .inl hre.present
    · obtain ⟨-, hu⟩ := of_then hu
      cases hu
      exact .inr ((insertById_wellFormed_iff hq.wellFormed hen).mp hq'.wellFormed)
  · by_cases hm : entry ∈ queue.entries
    · refine ⟨queue, ⟨hc, hq, ?_, hq⟩, .of_wellFormed hq.wellFormed hm rfl rfl⟩
      rw [if_pos ⟨entry, hm, rfl⟩]
    · have hf := h.resolve_left hm
      have hwf := (insertById_wellFormed_iff hq.wellFormed hen).mpr hf
      refine ⟨{ queue with entries := insertById entry queue.entries },
        ⟨hc, hq, ?_, hwf, fun row hr => ?_⟩,
        .of_wellFormed hwf (by simp [insertById]) insertById_others rfl⟩
      · rw [if_neg ?_, then_eq_ok]
        · exact ⟨ensure_of hen.below, rfl⟩
        · rintro ⟨existing, hex, hj⟩
          rcases hf existing hex with hp | hp
          · exact hp.jobs hj
          · exact hp.jobs hj.symm
      · rcases mem_of_mem_insertById hr with rfl | hm
        · exact hc
        · exact hq.client row hm

end

/-- **When a rolled back submission can be undone.** Whatever happens between
taking a row out and putting it back, it returns unchanged, with every other
row as it was left, exactly when it is back already or every row now in the
queue is compatible with it: another job and queue id, enqueue times in the
order of the ids, and the same cap if they share a run. -/
theorem rollback_restored_iff {world world' : World} {queue removed now : QueueSnapshot}
    {entry : QueueEntry}
    (hremove : removeTaskTurnForSubmissionRollback world queue entry.jobId =
      .ok (removed, some entry))
    (hrun : ReflTransGen (QueueStep world.clientId) removed now)
    (hclient : world'.clientId = world.clientId) :
    (∃ after, restoreTaskTurnForSubmissionRollback world' now entry = .ok (after, ()) ∧
      Restored entry now after) ↔ entry ∈ now.entries ∨ Fits entry now := by
  obtain ⟨hq, hr, hm, hn⟩ := removed_row hremove
  have hno := stored_of_run hr hrun
  have hl := hq.wellFormed.listed entry hm
  have hle := nextId_le_of_run hrun
  refine restore_iff (hclient ▸ hno) ⟨hl.valid, hl.positive, ?_⟩ (hclient ▸ hq.client entry hm)
  have hb := hl.below
  omega

/-! ## Concrete queues -/

/-- A queued turn whose submission is rolled back. -/
def rolledBack : QueueEntry := .sample 1 ⟨1⟩ ⟨1, 1⟩ (.waiting ⟨1, 1⟩) 10 none

def another (state : QueueState) (t : Nat) : QueueEntry := .sample 2 ⟨2⟩ ⟨2, 2⟩ state t none

/-- Another row is parked while the row is away. -/
theorem rollback_restored_directly : ∃ after,
    restoreTaskTurnForSubmissionRollback (World.quiet ⟨7⟩) ⟨3, [another .parked 15]⟩ rolledBack =
        .ok (after, ()) ∧ Restored rolledBack ⟨3, [another .parked 15]⟩ after := by
  have hr : removeTaskTurnForSubmissionRollback (World.quiet ⟨7⟩)
      ⟨3, [rolledBack, another (.waiting ⟨2, 2⟩) 15]⟩ rolledBack.jobId =
        .ok (⟨3, [another (.waiting ⟨2, 2⟩) 15]⟩, some rolledBack) := by decide
  refine (rollback_restored_iff hr (.single ⟨World.quiet ⟨7⟩, .parkRow ⟨2⟩, rfl, by decide⟩)
    rfl).mpr (.inr fun row hm => .inr ?_)
  rw [mem_singleton.mp hm]
  exact ⟨by decide, by decide, by decide, nofun⟩

/-- The clock is set back and another turn is queued while the row is away: it is
queued at its own time, because there is no row left to follow, and the old row
no longer fits in front of it. -/
theorem rollback_lost_after_clock_moved_back :
    (removeTaskTurnForSubmissionRollback (World.quiet ⟨7⟩) ⟨2, [rolledBack]⟩ ⟨1⟩ =
      .ok (⟨2, []⟩, some rolledBack)) ∧
    (enqueue (World.quiet ⟨7⟩) ⟨2, []⟩ (.sample 0 ⟨2⟩ ⟨2, 2⟩ (.waiting ⟨2, 2⟩) 5 none) =
      .ok (⟨3, [another (.waiting ⟨2, 2⟩) 5]⟩, another (.waiting ⟨2, 2⟩) 5)) ∧
    (restoreTaskTurnForSubmissionRollback (World.quiet ⟨7⟩)
      ⟨3, [another (.waiting ⟨2, 2⟩) 5]⟩ rolledBack =
        .error (.protocol "queue timestamps are not monotonic")) := by
  decide

end MacWorker.Queue
