import MacWorker.Queue.Rollback

/-! # Undoing a handover

A runner that took over a parked turn may have to give it back. The release parks the
recipient's row again and wakes the donor's under its old owner and permit. Only the
donor's permit is restored, and the same two runners are written whatever the records held
before. -/
namespace MacWorker.Queue
open Fallible Relation MacWorker.Scheduler List

section
variable {queue : QueueSnapshot}

theorem split_of_row {jobId row} (h : queue.row jobId = some row) :
    ∃ before after, queue.entries = before ++ row :: after := by
  obtain ⟨-, before, after, he, -⟩ := find?_eq_some_iff_append.mp h
  exact ⟨before, after, he⟩

theorem row_set (hq : queue.WellFormed) {i row} (row' : QueueEntry)
    (hi : queue.entries[i]? = some row) (hs : row.SameRow row') (jobId : JobId) :
    QueueSnapshot.row { queue with entries := queue.entries.set i row' } jobId =
      if jobId = row.jobId then some row' else queue.row jobId := by
  obtain ⟨hlt, hg⟩ := List.getElem?_eq_some_iff.mp hi
  obtain ⟨before, after, he, -, hse⟩ := exists_of_set hlt
  rw [hg] at he
  unfold QueueSnapshot.row
  rw [hse, he]
  simp only [find?_append, find?_cons, hs.jobId]
  by_cases hj : jobId = row.jobId
  · have hb : before.find? (·.jobId == row.jobId) = none :=
      find?_eq_none.mpr fun other ho => by simp [jobs_before hq he other ho]
    simp [hj, hb]
  · have hne : (row.jobId == jobId) = false := by simpa using Ne.symm hj
    simp [hj, hne]

end

/-! ## The release -/

def World.runner (world : World) (taskId : TaskId) : Option ProcessIdentity :=
  (world.tasks.find? (·.info.taskId == taskId)).bind (·.runner)

def writeRunners (writes : List (TaskId × Option ProcessIdentity))
    (runners : TaskId → Option ProcessIdentity) : TaskId → Option ProcessIdentity :=
  writes.foldl (fun runners write => Function.update runners write.1 write.2) runners

/-- What a release writes into the two task records. -/
def releasedRunners (sourceTask recipientTask : TaskId) (owner : ProcessIdentity) :
    List (TaskId × Option ProcessIdentity) :=
  [(recipientTask, none), (sourceTask, some owner)]

section
variable {source recipient : TaskId} {owner : ProcessIdentity}
  {runners : TaskId → Option ProcessIdentity}

theorem written_source :
    writeRunners [(recipient, some owner), (source, none)] runners source = none := by
  simp [writeRunners]

theorem written_recipient :
    writeRunners [(recipient, some owner), (source, none)] runners recipient = some owner ↔
      source ≠ recipient := by
  by_cases h : source = recipient
  · simp [writeRunners, h]
  · simp [writeRunners, Function.update_of_ne (Ne.symm h), h]

theorem restored_runners_iff (h : source ≠ recipient) :
    writeRunners (releasedRunners source recipient owner)
        (writeRunners [(recipient, some owner), (source, none)] runners) = runners ↔
      runners recipient = none ∧ runners source = some owner := by
  simp only [writeRunners, releasedRunners, foldl_cons, foldl_nil]
  constructor
  · intro he
    rw [← he, Function.update_of_ne h.symm]
    simp
  · intro ⟨hr, hs⟩
    funext task
    by_cases ht : task = source
    · simp [ht, hs]
    · by_cases ht' : task = recipient
      · simp [ht', Function.update_of_ne h.symm, hr]
      · simp [Function.update_of_ne ht, Function.update_of_ne ht']

end

def QueueEntry.asParked (entry : QueueEntry) : QueueEntry :=
  { entry with state := .parked, slotReservation := none }

theorem QueueEntry.asParked_eq_iff {entry : QueueEntry} (h : entry.state = .parked) :
    entry.asParked = entry ↔ entry.slotReservation = none := by
  refine ⟨fun he => by rw [← he]; rfl, fun hr => ?_⟩
  unfold asParked
  rw [← h, ← hr]

section
variable {world : World} {queue : QueueSnapshot} {sourceTask recipientTask : TaskId}
  {source claim : QueueEntry} {owner : ProcessIdentity}
  {sourceRecord recipientRecord : LocalTaskRecord}

theorem runners_of_release {queue'}
    (h : releaseWaitingRunnerReassignment world queue sourceTask source recipientTask claim owner =
      .ok queue') (hs : world.loadTask sourceTask = .ok sourceRecord)
    (hr : world.loadTask recipientTask = .ok recipientRecord) :
    sourceRecord.runner = none ∧ recipientRecord.runner = some owner := by
  unfold releaseWaitingRunnerReassignment at h
  simp only [then_eq_ok] at h
  obtain ⟨-, -, h⟩ := h
  split at h
  · cases h
  split at h
  · cases h
  rw [then_eq_ok, hs, hr] at h
  exact ensure_eq_ok.mp (of_then h.2).1

theorem release_of {worker nowMillis} (hq : Stored world.clientId queue) (hv : source.Valid)
    (hk : source.kind = .taskTurn) (hw : source.state = .waiting owner)
    (hro : queue.row source.jobId = some source.asParked) (hck : claim.kind = .taskTurn)
    (hcp : claim.preacceptanceAbandonmentProof = none)
    (hcw : claim.state = .dispatching owner worker nowMillis)
    (hcr : queue.row claim.jobId = some claim) (hs : world.loadTask sourceTask = .ok sourceRecord)
    (hr : world.loadTask recipientTask = .ok recipientRecord)
    (hru : sourceRecord.runner = none ∧ recipientRecord.runner = some owner) :
    ∃ queue', releaseWaitingRunnerReassignment world queue sourceTask source recipientTask claim
        owner = .ok queue' ∧
      ∀ jobId, queue'.row jobId = if jobId = source.jobId then some source
        else if jobId = claim.jobId then some claim.asParked else queue.row jobId := by
  obtain ⟨before, after, hd⟩ := split_of_row hro
  obtain ⟨before', after', hc⟩ := split_of_row hcr
  have hne : before.length ≠ before'.length :=
    positions_ne hd hc (by simp [hcw, QueueEntry.asParked])
  have hcv := (hq.wellFormed.listed claim (by simp [hc])).valid
  have how : owner.Valid := by
    have hst := hv.state
    rw [hw] at hst
    exact ProcessIdentity.validate_eq_ok.mp hst
  -- The recipient is parked; the donor is woken and then gets its permit back.
  have hp : claim.asParked.Valid :=
    { hcv.withState hck hcp .parked rfl with reservation := fun r hr => by cases hr }
  have hpa : claim.park = .ok claim.asParked :=
    QueueEntry.park_eq_ok.mpr ⟨hck, hcp, by simp [hcw], rfl, hp⟩
  have hwo : QueueEntry.Valid { source with slotReservation := none } :=
    { hv with reservation := fun r hr => by cases hr }
  have hu : source.asParked.unpark owner = .ok { source with slotReservation := none } :=
    QueueEntry.unpark_eq_ok.mpr ⟨how, ⟨hk, rfl⟩, by rw [← hw]; rfl, hwo⟩
  have hpe : QueueEntry.setSlotReservation { source with slotReservation := none }
      source.slotReservation = .ok source := by
    unfold QueueEntry.setSlotReservation
    rw [then_eq_ok, checkSome_eq_ok, QueueEntry.checked_eq_ok]
    exact ⟨fun r hr => RunnerSlotReservation.check_eq_ok.mpr (hv.reservation r hr), rfl, hv⟩
  have hwf := hq.wellFormed.set claim.asParked (getElem_split hc) rfl hp
  have hat : (queue.entries.set before'.length claim.asParked)[before.length]? =
      some source.asParked := by
    rw [getElem?_set_ne hne.symm, getElem_split hd]
  have hwf' := hwf.set source hat rfl hv
  refine ⟨{ queue with entries :=
    (queue.entries.set before'.length claim.asParked).set before.length source }, ?_, fun jobId =>
      ?_⟩
  · have hd' : splitFirst (·.jobId == source.jobId) queue.entries =
        some (before, source.asParked, after) := splitFirst_row hq.wellFormed hd
    unfold releaseWaitingRunnerReassignment requireQueueClient
    simp only [then_eq_ok, QueueSnapshot.validate_iff, ensure_eq_ok, hd',
      splitFirst_row hq.wellFormed hc, hs, hr, bind_ok]
    refine ⟨hq.wellFormed, hq.client, ⟨hne, rfl, rfl, trivial, ?_, ?_⟩, hru, ?_⟩
    · rw [QueueEntry.ownerOpt, hcw]; rfl
    · rw [QueueEntry.ownerOpt, hw]; rfl
    rw [(updateAt_eq_ok (getElem_split hc)).mpr ⟨_, hpa, rfl⟩, bind_ok,
      (updateAt_eq_ok hat).mpr ⟨_, hu, rfl⟩, bind_ok,
      (updateAt_eq_ok (getElem?_set_self (by simp [hd]))).mpr ⟨_, hpe, rfl⟩, bind_ok,
      set_set, then_eq_ok, QueueSnapshot.validate_iff]
    exact ⟨hwf', rfl⟩
  · rw [row_set hwf source hat rfl, row_set hq.wellFormed claim.asParked (getElem_split hc) rfl]
    rfl

end

/-! ## From the handover to the release -/

/-- An operation that leaves two rows alone. -/
def Aside (clientId : ClientId) (jobId jobId' : JobId) (queue queue' : QueueSnapshot) : Prop :=
  QueueStep clientId queue queue' ∧ queue'.row jobId = queue.row jobId ∧
    queue'.row jobId' = queue.row jobId'

theorem row_of_aside {clientId jobId jobId' queue later} (hq : Stored clientId queue)
    (h : ReflTransGen (Aside clientId jobId jobId') queue later) :
    Stored clientId later ∧ later.row jobId = queue.row jobId ∧
      later.row jobId' = queue.row jobId' :=
  Reach.invariant (p := fun later => Stored clientId later ∧
      later.row jobId = queue.row jobId ∧ later.row jobId' = queue.row jobId')
    (fun _ _ h hs => ⟨hs.1.stored, hs.2.1.trans h.2.1, hs.2.2.trans h.2.2⟩)
    ⟨hq, rfl, rfl⟩ h

/-- The donor's row is parked, the recipient's is the owner's, and all others are as before. -/
structure Exchanged (queue : QueueSnapshot) (turnId : TurnId) (owner : ProcessIdentity)
    (nowMillis : Nat) (queue' : QueueSnapshot) (claim donor recipient : QueueEntry) : Prop where
  before : queue.row turnId = some donor ∧ queue.row claim.jobId = some recipient
  waiting : donor.state = .waiting owner
  parked : recipient.state = .parked
  wellFormed : queue'.WellFormed
  claimed : ∃ worker, claim = { recipient with state := .dispatching owner worker nowMillis }
  nextId : queue'.nextId = queue.nextId
  rows : ∀ jobId, queue'.row jobId = if jobId = claim.jobId then some claim
    else if jobId = turnId then some donor.asParked else queue.row jobId

/-- Some time after the handover: neither row was touched, and the two records still hold the
runners it wrote. -/
structure Afterwards (world : World) (taskId : TaskId) (turnId : TurnId) (queue' : QueueSnapshot)
    (result : Reassignment) (world' : World) (later : QueueSnapshot) : Prop where
  client : world'.clientId = world.clientId
  run : ReflTransGen (Aside world.clientId turnId result.claim.jobId) queue' later
  records : ∀ task ∈ [taskId, result.taskId], ∃ record, world'.loadTask task = .ok record ∧
    record.runner = writeRunners result.runners world.runner task

/-- The release succeeds and gives back both rows and both runners as they were. -/
def Undone (world : World) (taskId : TaskId) (owner : ProcessIdentity) (result : Reassignment)
    (donor recipient : QueueEntry) (world' : World) (later : QueueSnapshot) : Prop :=
  ∃ restored, releaseWaitingRunnerReassignment world' later taskId donor result.taskId result.claim
      owner = .ok restored ∧
    (∀ jobId, restored.row jobId = if jobId = donor.jobId then some donor
      else if jobId = recipient.jobId then some recipient else later.row jobId) ∧
    writeRunners (releasedRunners taskId result.taskId owner)
      (writeRunners result.runners world.runner) = world.runner

section
variable {world : World} {queue queue' : QueueSnapshot} {taskId : TaskId} {turnId : TurnId}
  {owner : ProcessIdentity} {observations : List CandidateObservation} {nowMillis : Nat}
  {eligible : Option (List TurnId)} {result : Reassignment}

/-- What a handover did, and what the release asks of the two rows. -/
theorem exchanged
    (h : claimParkedFilteredForWaitingRunner world queue taskId turnId owner observations nowMillis
      eligible = .ok (queue', some result)) :
    Stored world.clientId queue' ∧ ∃ donor recipient,
      Exchanged queue turnId owner nowMillis queue' result.claim donor recipient ∧
      (donor.Valid ∧ donor.kind = .taskTurn ∧ donor.jobId = turnId) ∧
      recipient.kind = .taskTurn ∧ recipient.preacceptanceAbandonmentProof = none := by
  have hst : QueueStep world.clientId queue queue' :=
    ⟨world, .claimParkedFilteredForWaitingRunner taskId turnId owner observations nowMillis
      eligible,
      rfl, map_fst_eq_ok.mpr ⟨_, h⟩⟩
  obtain ⟨hq, hou, -⟩ := claimParked_ok h
  refine ⟨hst.stored, ?_⟩
  cases hou with
  | @handed older rest before after source target target' tasks worker _ _ hpo ht hk hs
      _ hf hch hp hc hwf hcl =>
    have ha := reassignCandidate_some hch.here
    have hso := (hq.wellFormed.listed source (by simp [hpo])).valid
    have hta := (hq.wellFormed.listed target (by simp [hf])).valid
    have hne : older.length ≠ before.length := positions_ne hpo hf (by rw [hs, ha.parked]; simp)
    have hj : result.claim.jobId = target.jobId := by rw [hcl, hc]
    have hpa := (QueueEntry.park_eq_ok.mp (park_waiting hso hk hs)).2.2.2.2
    have hwf' := hq.wellFormed.set source.asParked (getElem_split hpo) rfl hpa
    have hat : (queue.entries.set older.length source.asParked)[before.length]? = some target := by
      rw [getElem?_set_ne hne, getElem_split hf]
    refine ⟨source, target, ⟨⟨ht ▸ hq.wellFormed.row_of_split hpo, ?_⟩, hs, ha.parked,
      hwf, ⟨worker, hcl.trans hc⟩, by rw [hp], fun jobId => ?_⟩,
      ⟨hso, hk, ht⟩, (runnable_record ha.runnable).1,
      hta.no_proof (by rw [ha.parked]; rfl)⟩
    · rw [hj]
      exact hq.wellFormed.row_of_split hf
    · rw [hp, hj, hcl, ← ht]
      exact (row_set hwf' target' hat (by rw [hc]; rfl) jobId).trans
        (by rw [row_set hq.wellFormed source.asParked (getElem_split hpo) rfl])

/-- **A release restores what the handover changed exactly when the recipient had no permit, the
two turns are of different tasks, the recipient's had no runner and the donor's had the owner.** -/
theorem undone_iff
    (h : claimParkedFilteredForWaitingRunner world queue taskId turnId owner observations nowMillis
      eligible = .ok (queue', some result)) :
    ∃ donor recipient, Exchanged queue turnId owner nowMillis queue' result.claim donor recipient ∧
      ∀ world' later, Afterwards world taskId turnId queue' result world' later →
        (Undone world taskId owner result donor recipient world' later ↔
          recipient.slotReservation = none ∧ taskId ≠ result.taskId ∧
          world.runner result.taskId = none ∧ world.runner taskId = some owner) := by
  obtain ⟨hq', donor, recipient, hex, ⟨hv, hk, htu⟩, hck, hcp⟩ := exchanged h
  obtain ⟨worker, hc⟩ := hex.claimed
  refine ⟨donor, recipient, hex, fun world' later hl => ?_⟩
  have hw := (claimParked_ok h).2.2 result rfl
  have hj : result.claim.jobId = recipient.jobId := by rw [hc]
  have hne : turnId ≠ result.claim.jobId := by
    intro he
    have hs := hex.before.2
    rw [← he, hex.before.1, Option.some.injEq] at hs
    have hst := hex.waiting
    rw [hs, hex.parked] at hst
    cases hst
  -- Nothing touched the two rows, so the release finds them as the handover left them.
  obtain ⟨hla, hd, hre⟩ := row_of_aside hq' hl.run
  rw [hex.rows, if_neg hne, if_pos rfl] at hd
  rw [hex.rows, if_pos rfl] at hre
  obtain ⟨sourceRecord, hso, hsr⟩ := hl.records taskId (by simp)
  obtain ⟨recipientRecord, hrc, hr⟩ := hl.records result.taskId (by simp)
  rw [hw, written_source] at hsr
  rw [hw] at hr
  have hrl := release_of (hl.client ▸ hla) hv hk hex.waiting (htu ▸ hd)
    (by rw [hc]; exact hck) (by rw [hc]; exact hcp) (by rw [hc]) hre hso hrc
  have hb : result.claim.asParked = recipient ↔ recipient.slotReservation = none := by
    rw [hc]
    exact QueueEntry.asParked_eq_iff hex.parked
  unfold Undone
  rw [hw]
  refine ⟨fun ⟨restored, hok, hro, hru⟩ => ?_, fun ⟨hp, ht, hrn⟩ => ?_⟩
  · have hre' := runners_of_release hok hso hrc
    have ht := written_recipient.mp (hr.symm.trans hre'.2)
    obtain ⟨restored', hok', hr'⟩ := hrl hre'
    obtain rfl : restored = restored' := Except.ok.inj (hok.symm.trans hok')
    have hrw := (hro recipient.jobId).symm.trans (hr' recipient.jobId)
    rw [← hj, htu, if_neg hne.symm, if_pos rfl, if_neg hne.symm, if_pos rfl,
      Option.some.injEq] at hrw
    exact ⟨hb.mp hrw.symm, ht, (restored_runners_iff ht).mp hru⟩
  · obtain ⟨restored, hok, hro⟩ := hrl ⟨hsr, hr.trans (written_recipient.mpr ht)⟩
    refine ⟨restored, hok, fun jobId => ?_, (restored_runners_iff ht).mpr hrn⟩
    rw [hro, hb.mpr hp, hj]

end

/-- The parked turn of task 1, which may hold a permit, before the waiting one of task 2. -/
def parkedWith (permit : Option RunnerSlotReservation) : QueueSnapshot :=
  ⟨3, [{ QueueEntry.sample 1 ⟨1⟩ ⟨1, 1⟩ .parked 1 none with slotReservation := permit },
    waitingTurn]⟩

def handedTask (permit : Option RunnerSlotReservation) : Reassignment :=
  { taskId := ⟨1⟩
    claim := { QueueEntry.sample 1 ⟨1⟩ ⟨1, 1⟩ (.dispatching ⟨2, 2⟩ "mini" 5) 1 none with
      slotReservation := permit }
    inherited := none
    runners := [(⟨1⟩, some ⟨2, 2⟩), (⟨2⟩, none)] }

def handedQueue (permit : Option RunnerSlotReservation) : QueueSnapshot :=
  ⟨3, [(handedTask permit).claim, .sample 2 ⟨2⟩ ⟨2, 2⟩ .parked 2 none]⟩

def runningWorld (runner runner' : Option ProcessIdentity) : World :=
  { twoTaskWorld with tasks := [{ activeTask ⟨1⟩ 5 ⟨1⟩ with runner := runner },
    { activeTask ⟨2⟩ 5 ⟨2⟩ with runner := runner' }] }

theorem afterwards_handed (permit : Option RunnerSlotReservation) :
    Afterwards (runningWorld none (some ⟨2, 2⟩)) ⟨2⟩ ⟨2⟩ (handedQueue permit) (handedTask permit)
      (runningWorld (some ⟨2, 2⟩) none) (handedQueue permit) where
  client := rfl
  run := .refl
  records := by
    intro task ht
    simp only [mem_cons, not_mem_nil, or_false] at ht
    rcases ht with rfl | rfl
    · exact ⟨_, rfl, rfl⟩
    · exact ⟨_, rfl, rfl⟩

/-- A recipient without a permit comes back as it was. -/
theorem undone_iff_parkedWith :
    ∃ donor recipient, Exchanged (parkedWith none) ⟨2⟩ ⟨2, 2⟩ 5 (handedQueue none)
        (handedTask none).claim donor recipient ∧
      Undone (runningWorld none (some ⟨2, 2⟩)) ⟨2⟩ ⟨2, 2⟩ (handedTask none) donor recipient
        (runningWorld (some ⟨2, 2⟩) none) (handedQueue none) := by
  have hc : claimParkedFilteredForWaitingRunner (runningWorld none (some ⟨2, 2⟩))
      (parkedWith none) ⟨2⟩ ⟨2⟩ ⟨2, 2⟩ idleMini 5 none =
        .ok (handedQueue none, some (handedTask none)) := by decide +kernel
  obtain ⟨donor, recipient, hex, hif⟩ := undone_iff hc
  refine ⟨donor, recipient, hex, (hif _ _ (afterwards_handed none)).mpr ⟨?_, by decide, rfl, rfl⟩⟩
  obtain rfl := Option.some.inj hex.before.2
  rfl

/-- The recipient's permit is lost between the handover and its release. -/
theorem release_drops_permit :
    ¬ ∀ (world : World) (queue : QueueSnapshot) (taskId : TaskId) (turnId : TurnId)
      (owner : ProcessIdentity) (observations : List CandidateObservation) (nowMillis : Nat)
      (eligible : Option (List TurnId)) (queue' : QueueSnapshot) (result : Reassignment),
      claimParkedFilteredForWaitingRunner world queue taskId turnId owner observations nowMillis
        eligible = .ok (queue', some result) →
      ∀ donor recipient, queue.row turnId = some donor →
        queue.row result.claim.jobId = some recipient →
        ∀ world' later, Afterwards world taskId turnId queue' result world' later →
          Undone world taskId owner result donor recipient world' later := by
  intro h
  have hc : claimParkedFilteredForWaitingRunner (runningWorld none (some ⟨2, 2⟩))
      (parkedWith (some ⟨⟨9, 9⟩, 9, none⟩)) ⟨2⟩ ⟨2⟩ ⟨2, 2⟩ idleMini 5 none =
        .ok (handedQueue (some ⟨⟨9, 9⟩, 9, none⟩), some (handedTask (some ⟨⟨9, 9⟩, 9, none⟩))) := by
    decide +kernel
  obtain ⟨restored, hok, hr, -⟩ := h _ _ _ _ _ _ _ _ _ _ hc _ _ rfl rfl _ _ (afterwards_handed _)
  -- The queue the release publishes holds no permit at all.
  have hre : releaseWaitingRunnerReassignment (runningWorld (some ⟨2, 2⟩) none)
      (handedQueue (some ⟨⟨9, 9⟩, 9, none⟩)) ⟨2⟩ waitingTurn ⟨1⟩
      (handedTask (some ⟨⟨9, 9⟩, 9, none⟩)).claim ⟨2, 2⟩ = .ok (parkedWith none) := by
        decide +kernel
  obtain rfl : restored = parkedWith none := Except.ok.inj (hok.symm.trans hre)
  exact absurd (hr ⟨1⟩) (by decide)

end MacWorker.Queue
