import MacWorker.Queue.Rollback

/-! # Clocks that run backwards

A new row is never queued earlier than the row before it: its enqueue time is
lifted to the last row's. The lifted time can lie ahead of the clock, and the
operations that record a time on the row compare the clock with it. -/
namespace MacWorker.Queue
open Fallible Relation QueueEntry

section
variable {queue : QueueSnapshot} {row : QueueEntry} {i t : Nat}

theorem requestCancel_iff (hv : row.Valid) (hl : row.isCancelRequested = false) :
    (∃ row', row.requestCancel t = .ok row') ↔ row.enqueuedAtMillis ≤ t := by
  have hn : row.cancelRequestedAtMillis = none := by
    simpa [isCancelRequested] using hl
  refine ⟨fun ⟨row', h⟩ => (requestCancel_eq_ok.mp h).1, fun ht => ?_⟩
  have hva : QueueEntry.Valid { row with cancelRequestedAtMillis := some t } :=
    { hv with cancel := fun s hs => by cases hs; exact ht }
  refine ⟨_, requestCancel_eq_ok.mpr ⟨ht, fun s hs => ?_, rfl, hva⟩⟩
  cases hn.symm.trans hs

end

/-- **A row is wedged exactly while the clock is behind its enqueue time.** In
every queue that the operations can produce, cancelling a row and dispatching
a waiting row at time `t` go through, and leave a well-formed queue, exactly
when the row was not queued after `t`. -/
theorem clock_ahead_iff {clientId : ClientId} {queue : QueueSnapshot}
    (hrun : ReflTransGen (QueueStep clientId) QueueSnapshot.empty queue) {i : Nat}
    {row : QueueEntry} (hrow : queue.entries[i]? = some row) {t : Nat} (ht : t ≠ 0) :
    (row.isCancelRequested = false → ((∃ row', row.requestCancel t = .ok row' ∧
        QueueSnapshot.WellFormed { queue with entries := queue.entries.set i row' }) ↔
          row.enqueuedAtMillis ≤ t)) ∧
    (row.state.isWaiting = true → ∀ owner worker, owner.Valid →
      (row.kind = .batch → owner = row.enqueueOwner) → validateWorkerName worker = .ok () →
        ((∃ row', row.dispatch owner worker t = .ok row' ∧
          QueueSnapshot.WellFormed { queue with entries := queue.entries.set i row' }) ↔
            row.enqueuedAtMillis ≤ t)) := by
  have hem : Stored clientId QueueSnapshot.empty :=
    ⟨⟨fun _ h => absurd h List.not_mem_nil, .nil⟩, fun _ h => absurd h List.not_mem_nil⟩
  have hwf := (stored_of_run hem hrun).wellFormed
  have hv := (hwf.listed row (List.mem_of_getElem? hrow)).valid
  refine ⟨fun hl => ?_, fun hwa owner worker ho hb hw => ?_⟩
  · rw [← requestCancel_iff hv hl]
    refine exists_congr fun row' => and_iff_left_of_imp fun h => ?_
    obtain ⟨-, -, rfl, hv'⟩ := requestCancel_eq_ok.mp h
    exact hwf.set { row with cancelRequestedAtMillis := some t } hrow rfl hv'
  · rw [← dispatch_iff hv hwa ho hb hw ht]
    refine exists_congr fun row' => and_iff_left_of_imp fun h => ?_
    obtain ⟨rfl, hv'⟩ := dispatch_eq_ok.mp h
    exact hwf.set { row with state := .dispatching owner worker t } hrow rfl hv'

/-- A turn queued at 100, and the next one queued when the clock shows 50. -/
def setBack : QueueSnapshot :=
  ⟨3, [.sample 1 ⟨1⟩ ⟨1, 1⟩ (.waiting ⟨1, 1⟩) 100 none,
    .sample 2 ⟨2⟩ ⟨2, 2⟩ (.waiting ⟨2, 2⟩) 100 none]⟩

theorem setBack_reached : ReflTransGen (QueueStep ⟨7⟩) QueueSnapshot.empty setBack := by
  have hf : QueueStep ⟨7⟩ QueueSnapshot.empty
      ⟨2, [.sample 1 ⟨1⟩ ⟨1, 1⟩ (.waiting ⟨1, 1⟩) 100 none]⟩ :=
    ⟨World.quiet ⟨7⟩, .enqueue (.sample ⟨1⟩ ⟨1, 1⟩ 100 none), rfl, by decide⟩
  have hs : QueueStep ⟨7⟩ ⟨2, [.sample 1 ⟨1⟩ ⟨1, 1⟩ (.waiting ⟨1, 1⟩) 100 none]⟩ setBack :=
    ⟨World.quiet ⟨7⟩, .enqueue (.sample ⟨2⟩ ⟨2, 2⟩ 50 none), rfl, by decide⟩
  exact .tail (.single hf) hs

/-- At 120 the second turn can be cancelled. -/
theorem clock_ahead_of_setBack : ∃ row' : QueueEntry,
    QueueEntry.requestCancel (.sample 2 ⟨2⟩ ⟨2, 2⟩ (.waiting ⟨2, 2⟩) 100 none) 120 = .ok row' ∧
      QueueSnapshot.WellFormed { setBack with entries := setBack.entries.set 1 row' } := by
  have hr : setBack.entries[1]? = some (.sample 2 ⟨2⟩ ⟨2, 2⟩ (.waiting ⟨2, 2⟩) 100 none) := rfl
  exact ((clock_ahead_iff setBack_reached hr (by decide)).1 rfl).mpr (by decide)

/-- At 60 neither turn can be cancelled or dispatched, and a claim fails as a whole. -/
theorem clock_behind_wedges : ReflTransGen (QueueStep ⟨7⟩) QueueSnapshot.empty setBack ∧
    (∀ row ∈ setBack.entries, row.requestCancel 60 =
      .error (.protocol "queue cancellation timestamp predates enqueue timestamp")) ∧
    (∀ row ∈ setBack.entries, row.dispatch ⟨1, 1⟩ "mini" 60 =
      .error (.protocol "queue claim timestamp predates enqueue timestamp")) ∧
    claimNextMatching (World.quiet ⟨7⟩) setBack ⟨1, 1⟩ ["mini"] 60 none none =
      .error (.protocol "queue claim timestamp predates enqueue timestamp") :=
  ⟨setBack_reached, by decide, by decide, by decide⟩

/-! ## Clocks that do not -/

/-- One operation under a clock that has not passed `t`. A row that is put back was queued by
`t` too. -/
def TimelyStep (t : Nat) (queue queue' : QueueSnapshot) : Prop :=
  ∃ (world : World) (op : QueueOp),
    (∀ draft ∈ op.draft, draft.enqueuedAtMillis ≤ t) ∧
    (∀ entry ∈ op.restores, entry.enqueuedAtMillis ≤ t) ∧
    op.apply world queue = .ok queue'

theorem InPlace.enqueued_le {t queue queue'} (hp : InPlace queue queue')
    (h : ∀ row ∈ queue.entries, row.enqueuedAtMillis ≤ t) :
    ∀ row ∈ queue'.entries, row.enqueuedAtMillis ≤ t := by
  intro row' hr'
  obtain ⟨row, hro, hs⟩ := hp.origin row' hr'
  exact hs.enqueued ▸ h row hro

theorem enqueued_le_step {t queue queue'} (h : ∀ row ∈ queue.entries, row.enqueuedAtMillis ≤ t)
    (hs : TimelyStep t queue queue') :
    ∀ row ∈ queue'.entries, row.enqueuedAtMillis ≤ t := by
  obtain ⟨world, op, hd, hre, hap⟩ := hs
  cases (op.apply_applied hap).edit with
  | revised hc => exact hc.inPlace.enqueued_le h
  | started mem room place => exact place.enqueued_le h
  | resumed bypasses place => exact place.enqueued_le h
  | removed position named published =>
    intro row hr
    rw [published] at hr
    exact h row (mem_of_mem_removed position hr)
  | @appended draft row offered published id waiting job run kind time =>
    intro row' hr'
    rw [published, List.mem_append, List.mem_singleton] at hr'
    rcases hr' with hol | rfl
    · exact h row' hol
    · rw [time]
      refine max_le (hd draft offered) ?_
      cases hl : queue.entries.getLast? with
      | none => exact Nat.zero_le t
      | some last => exact h last (List.mem_of_getLast? hl)
  | @restored entry bypasses named published =>
    intro row hr
    rw [published] at hr
    rcases mem_of_mem_insertById hr with rfl | hol
    · exact hre row named
    · exact h row hol

/-- **A clock that never runs backwards wedges nothing.** While no row was queued by a clock
ahead of `t`, every row can be cancelled at `t`, and every waiting one dispatched. -/
theorem steady_clock_wedges_nothing {t queue} (ht : t ≠ 0)
    (hr : ReflTransGen (TimelyStep t) QueueSnapshot.empty queue) {row} (hm : row ∈ queue.entries) :
    (row.isCancelRequested = false → ∃ row', row.requestCancel t = .ok row') ∧
    (row.state.isWaiting = true → ∀ owner worker, owner.Valid →
      (row.kind = .batch → owner = row.enqueueOwner) → validateWorkerName worker = .ok () →
        ∃ row', row.dispatch owner worker t = .ok row') := by
  have hn : ∀ row : QueueEntry, row ∉ QueueSnapshot.empty.entries := fun _ => List.not_mem_nil
  have hin : queue.WellFormed ∧ ∀ row ∈ queue.entries, row.enqueuedAtMillis ≤ t := by
    refine Reach.invariant
      (p := fun q => q.WellFormed ∧ ∀ row ∈ q.entries, row.enqueuedAtMillis ≤ t)
      (fun _ _ h hs => ⟨?_, enqueued_le_step h.2 hs⟩)
      ⟨⟨fun _ h => absurd h (hn _), .nil⟩, fun _ h => absurd h (hn _)⟩ hr
    obtain ⟨_, op, -, -, ha⟩ := hs
    exact (op.apply_applied ha).stored'.wellFormed
  have hv := (hin.1.listed row hm).valid
  refine ⟨fun hl => (requestCancel_iff hv hl).mpr (hin.2 row hm), ?_⟩
  intro hwa owner worker ho hb hw
  exact (dispatch_iff hv hwa ho hb hw ht).mpr (hin.2 row hm)

/-- A turn queued at 40 is taken out and put back under its id. At 100 it can be cancelled. -/
theorem steady_clock_wedges_nothing_restored : ∃ row',
    QueueEntry.requestCancel (.sample 1 ⟨1⟩ ⟨1, 1⟩ (.waiting ⟨1, 1⟩) 40 none) 100 = .ok row' := by
  have hq : TimelyStep 100 QueueSnapshot.empty
      ⟨2, [.sample 1 ⟨1⟩ ⟨1, 1⟩ (.waiting ⟨1, 1⟩) 40 none]⟩ :=
    ⟨World.quiet ⟨7⟩, .enqueue (.sample ⟨1⟩ ⟨1, 1⟩ 40 none), by decide⟩
  have ho : TimelyStep 100 ⟨2, [.sample 1 ⟨1⟩ ⟨1, 1⟩ (.waiting ⟨1, 1⟩) 40 none]⟩ ⟨2, []⟩ :=
    ⟨World.quiet ⟨7⟩, .removeTaskTurnForSubmissionRollback ⟨1⟩, by decide⟩
  have hb : TimelyStep 100 ⟨2, []⟩ ⟨2, [.sample 1 ⟨1⟩ ⟨1, 1⟩ (.waiting ⟨1, 1⟩) 40 none]⟩ :=
    ⟨World.quiet ⟨7⟩, .restoreTaskTurnForSubmissionRollback
      (.sample 1 ⟨1⟩ ⟨1, 1⟩ (.waiting ⟨1, 1⟩) 40 none), by decide⟩
  exact (steady_clock_wedges_nothing (by decide) (.tail (.tail (.single hq) ho) hb)
    List.mem_cons_self).1 rfl

end MacWorker.Queue
