import MacWorker.Queue.Rollback

/-! # Rows are conserved

What the operations do to the rows of the queue as a list: they change rows where they
stand, append one under the next queue id, take out the one they name, or put a row back
under the id it had. So a queue id belongs to one row for good, and a row leaves only by
an operation that names it.

Completing a start and reassigning a runner write task records after they have published
the queue. When such a write fails the call fails, and the queue stays as published. -/
namespace MacWorker.Queue
open Fallible Relation MacWorker.Scheduler List

/-! ## Calls, whether they succeed or not -/

/-- What a call leaves in the queue, and its answer. -/
structure Outcome where
  queue : QueueSnapshot
  result : Except WorkerError Unit
  deriving DecidableEq

/-- A call of the store. The calls that write task records after the queue are given the error
of those writes, if there is one. -/
inductive QueueCall where
  | single (op : QueueOp)
  | completeRunnerSpawn (taskId : TaskId) (turnId : TurnId) (token : Uuid)
      (child : ProcessIdentity) (unrecorded : Option WorkerError)
  | claimParkedForWaitingRunner (taskId : TaskId) (turnId : TurnId) (owner : ProcessIdentity)
      (observations : List CandidateObservation) (nowMillis : Nat)
      (eligible : Option (List TurnId)) (unrecorded : Option WorkerError)
  | releaseWaitingRunnerReassignment (sourceTask : TaskId) (source : QueueEntry)
      (recipientTask : TaskId) (claim : QueueEntry) (owner : ProcessIdentity)
      (unrecorded : Option WorkerError)

namespace QueueCall

def removes : QueueCall → Option JobId
  | .single op => op.removes
  | _ => none

def restores : QueueCall → Option QueueEntry
  | .single op => op.restores
  | _ => none

/-- The call writes task records after it has published the queue. -/
def writesRecords : QueueCall → Bool
  | .single _ => false
  | _ => true

def recorded : Option WorkerError → Except WorkerError Unit
  | none => .ok ()
  | some error => .error error

def perform (world : World) (queue : QueueSnapshot) : QueueCall → Outcome
  | .single op =>
    match op.apply world queue with
    | .error error => ⟨queue, .error error⟩
    | .ok next => ⟨next, .ok ()⟩
  | .completeRunnerSpawn taskId turnId token child none =>
    let completion := Queue.completeRunnerSpawn world queue taskId turnId token child
    ⟨completion.queue, completion.result.map fun _ => ()⟩
  | .completeRunnerSpawn taskId turnId token child (some error) =>
    match publishSpawnedChild world queue turnId token child with
    | .error error => ⟨queue, .error error⟩
    | .ok (published, ()) => ⟨published, (world.loadTask taskId).bind fun _ => .error error⟩
  | .claimParkedForWaitingRunner taskId turnId owner observations nowMillis eligible unrecorded =>
    match claimParkedFilteredForWaitingRunner world queue taskId turnId owner observations
        nowMillis eligible with
    | .error error => ⟨queue, .error error⟩
    | .ok (next, none) => ⟨next, .ok ()⟩
    | .ok (next, some _) => ⟨next, recorded unrecorded⟩
  | .releaseWaitingRunnerReassignment sourceTask source recipientTask claim owner unrecorded =>
    match Queue.releaseWaitingRunnerReassignment world queue sourceTask source recipientTask claim
        owner with
    | .error error => ⟨queue, .error error⟩
    | .ok next => ⟨next, recorded unrecorded⟩

/-- The first publication of the call. -/
def publishes (world : World) (queue : QueueSnapshot) : QueueCall → Except WorkerError QueueSnapshot
  | .single op => op.apply world queue
  | .completeRunnerSpawn _ turnId token child _ =>
    (publishSpawnedChild world queue turnId token child).map Prod.fst
  | .claimParkedForWaitingRunner taskId turnId owner observations nowMillis eligible _ =>
    (claimParkedFilteredForWaitingRunner world queue taskId turnId owner observations nowMillis
      eligible).map Prod.fst
  | .releaseWaitingRunnerReassignment sourceTask source recipientTask claim owner _ =>
    Queue.releaseWaitingRunnerReassignment world queue sourceTask source recipientTask claim owner

end QueueCall

inductive CallOutcome (world : World) (call : QueueCall) (queue : QueueSnapshot) : Outcome → Prop
  | refused {error : WorkerError} (unpublished : call.publishes world queue = .error error) :
      CallOutcome world call queue ⟨queue, .error error⟩
  | applied {op : QueueOp} {next : QueueSnapshot} (removes : call.removes = op.removes)
      (restores : call.restores = op.restores) (h : op.apply world queue = .ok next) :
      CallOutcome world call queue ⟨next, .ok ()⟩
  | published {next : QueueSnapshot} (records : call.writesRecords = true)
      (stored : Stored world.clientId next) (rows : Steady QueueEntry.Moved queue next)
      {result : Except WorkerError Unit}
      (failed : ∀ error, result = .error error → call.publishes world queue = .ok next) :
      CallOutcome world call queue ⟨next, result⟩

section
variable {world : World} {queue : QueueSnapshot}

theorem completeRunnerSpawn_performed (taskId : TaskId) (turnId : TurnId) (token : Uuid)
    (child : ProcessIdentity) (unrecorded : Option WorkerError) :
    CallOutcome world (.completeRunnerSpawn taskId turnId token child unrecorded) queue
      ((QueueCall.completeRunnerSpawn taskId turnId token child unrecorded).perform world
        queue) := by
  cases hp : publishSpawnedChild world queue turnId token child with
  | error error =>
    have hu : (QueueCall.completeRunnerSpawn taskId turnId token child unrecorded).publishes world
        queue = .error error := by rw [QueueCall.publishes, hp]; rfl
    cases unrecorded with
    | none =>
      simp only [QueueCall.perform, completeRunnerSpawn, hp]
      exact .refused hu
    | some error =>
      simp only [QueueCall.perform, hp]
      exact .refused hu
  | ok published =>
    have hu : (QueueCall.completeRunnerSpawn taskId turnId token child unrecorded).publishes world
        queue = .ok published.1 := by rw [QueueCall.publishes, hp]; rfl
    obtain ⟨-, hs, hr⟩ := updateRow_steady .refl (fun _ _ _ h => (publishChildRow_revises h).2)
      (of_then (of_then hp).2).2
    cases unrecorded with
    | some error =>
      simp only [QueueCall.perform, hp]
      exact .published rfl hs hr fun _ _ => hu
    | none =>
      simp only [QueueCall.perform, completeRunnerSpawn, hp]
      cases world.loadTask taskId with
      | error error => exact .published rfl hs hr fun _ _ => hu
      | ok record =>
        dsimp only
        cases hcr : updateRow world.clientId published.1 turnId (clearPermitRow token child) with
        | error error => exact .published rfl hs hr fun _ _ => hu
        | ok cleared =>
          obtain ⟨-, hs', hr'⟩ := updateRow_steady .refl
            (fun _ _ _ h => (clearPermitRow_revises h).2) hcr
          exact .published rfl hs' (hr.trans hr' fun _ _ _ => .trans) fun _ h => by cases h

theorem QueueCall.performed (call : QueueCall) :
    CallOutcome world call queue (call.perform world queue) := by
  cases call with
  | single op =>
    rw [perform]
    cases ha : op.apply world queue with
    | error error => exact .refused ha
    | ok next => exact .applied rfl rfl ha
  | completeRunnerSpawn taskId turnId token child unrecorded =>
    exact completeRunnerSpawn_performed taskId turnId token child unrecorded
  | claimParkedForWaitingRunner taskId turnId owner observations nowMillis eligible unrecorded =>
    rw [perform]
    cases hc : claimParkedFilteredForWaitingRunner world queue taskId turnId owner observations
        nowMillis eligible with
    | error error => exact .refused (by rw [publishes, hc]; rfl)
    | ok claimed =>
      obtain ⟨hr, ha⟩ := claimParked_moved hc
      have hs := (ha (.claimParkedFilteredForWaitingRunner taskId turnId owner observations
        nowMillis eligible)).stored'
      obtain ⟨next, _ | claim⟩ := claimed
      · exact .published rfl hs hr fun _ h => by cases h
      · exact .published rfl hs hr fun _ _ => by rw [publishes, hc]; rfl
  | releaseWaitingRunnerReassignment sourceTask source recipientTask claim owner unrecorded =>
    rw [perform]
    cases hre : Queue.releaseWaitingRunnerReassignment world queue sourceTask source
        recipientTask claim owner with
    | error error => exact .refused hre
    | ok next =>
      have hs := ((QueueOp.releaseWaitingRunnerReassignment sourceTask source recipientTask
        claim owner).apply_applied hre).stored'
      obtain ⟨-, -, hr⟩ := releaseReassignment_steady QueueEntry.Moved.refl
        (fun _ _ _ => .trans) (fun _ _ => .park) (fun _ _ _ => .unpark)
        (fun _ _ _ => .setSlotReservation) hre
      exact .published rfl hs hr fun _ _ => hre

end

/-! ## Runs -/

/-- The queue, and every version of a row that has stood in it. -/
structure Moment where
  queue : QueueSnapshot
  past : List QueueEntry

def Moment.after (moment : Moment) (outcome : Outcome) : Moment :=
  ⟨outcome.queue, outcome.queue.entries ++ moment.past⟩

/-- A row that is put back has stood in the queue before. -/
def Moment.Allows (moment : Moment) (call : QueueCall) : Prop :=
  ∀ entry, call.restores = some entry → entry ∈ moment.past

inductive Moment.Step (clientId : ClientId) : Moment → Moment → Prop
  | call {moment : Moment} (world : World) (call : QueueCall) (client : world.clientId = clientId)
      (allowed : moment.Allows call) :
      Moment.Step clientId moment (moment.after (call.perform world moment.queue))

structure Conserved (clientId : ClientId) (moment : Moment) : Prop where
  stored : Stored clientId moment.queue
  present : ∀ row ∈ moment.queue.entries, row ∈ moment.past
  below : ∀ row ∈ moment.past, row.queueId < moment.queue.nextId
  unique : ∀ row ∈ moment.past, ∀ other ∈ moment.past, row.queueId = other.queueId →
    row.SameRow other

section
variable {clientId : ClientId} {moment : Moment} {queue queue' : QueueSnapshot}

/-- A queue of versions of earlier rows brings no row that is new. -/
theorem Conserved.of_versions (h : Conserved clientId moment) {next result}
    (hst : Stored clientId next) (hn : next.nextId = moment.queue.nextId)
    (hv : ∀ row' ∈ next.entries, ∃ row ∈ moment.past, row.SameRow row') :
    Conserved clientId (moment.after ⟨next, result⟩) := by
  have hol : ∀ row' ∈ next.entries ++ moment.past, ∃ row ∈ moment.past, row.SameRow row' := by
    intro row' hr'
    rcases mem_append.mp hr' with hne | hp
    · exact hv row' hne
    · exact ⟨row', hp, rfl⟩
  refine ⟨hst, fun row hr => mem_append_left _ hr, fun row' hr' => ?_,
    fun row' hr' other' ho' hid => ?_⟩
  · obtain ⟨row, hr, hs⟩ := hol row' hr'
    rw [hs.queueId]
    exact hn ▸ h.below row hr
  · obtain ⟨row, hr, hs⟩ := hol row' hr'
    obtain ⟨other, hot, hs'⟩ := hol other' ho'
    have his : row.queueId = other.queueId := by rw [← hs.queueId, hid, hs'.queueId]
    exact hs'.trans ((h.unique row hr other hot his).trans hs.symm)

theorem Conserved.of_appended (h : Conserved clientId moment) {entry result}
    (hid : entry.queueId = moment.queue.nextId)
    (hs : Stored clientId ⟨moment.queue.nextId + 1, moment.queue.entries ++ [entry]⟩) :
    Conserved clientId (moment.after
      ⟨⟨moment.queue.nextId + 1, moment.queue.entries ++ [entry]⟩, result⟩) := by
  have hol : ∀ row ∈ (moment.queue.entries ++ [entry]) ++ moment.past,
      row = entry ∨ row ∈ moment.past := by
    intro row hr
    simp only [mem_append, mem_singleton] at hr
    rcases hr with (hq | rfl) | hp
    · exact .inr (h.present row hq)
    · exact .inl rfl
    · exact .inr hp
  refine ⟨hs, fun row hr => mem_append_left _ hr, fun row hr => ?_,
    fun row hr other hot his => ?_⟩
  · show row.queueId < moment.queue.nextId + 1
    rcases hol row hr with rfl | hp
    · omega
    · have := h.below row hp
      omega
  · rcases hol row hr with rfl | hp <;> rcases hol other hot with rfl | hp'
    · rfl
    · have := h.below other hp'
      omega
    · have := h.below row hp
      omega
    · exact h.unique row hp other hp' his

theorem Conserved.of_performed (h : Conserved clientId moment) {world}
    (hc : world.clientId = clientId) {call} (hal : moment.Allows call) {outcome}
    (hou : CallOutcome world call moment.queue outcome) :
    Conserved clientId (moment.after outcome) := by
  have hp : ∀ row ∈ moment.queue.entries, ∃ old ∈ moment.past, old.SameRow row :=
    fun row hr => ⟨row, h.present row hr, rfl⟩
  have hi : ∀ {next result}, Stored clientId next → InPlace moment.queue next →
      Conserved clientId (moment.after ⟨next, result⟩) := by
    intro next result hs rows
    refine h.of_versions hs rows.nextId fun row' hr' => ?_
    obtain ⟨row, hr, hsa⟩ := rows.origin row' hr'
    exact ⟨row, h.present row hr, hsa⟩
  cases hou with
  | refused unpublished => exact h.of_versions h.stored rfl hp
  | published records stored rows failed =>
    exact hi (hc ▸ stored) (rows.imp fun _ _ => QueueEntry.Moved.same)
  | @applied op next removes restores ha =>
    have hs : Stored clientId next := hc ▸ (op.apply_applied ha).stored'
    cases (op.apply_applied ha).edit with
    | revised rows => exact hi hs rows.inPlace
    | started mem room place => exact hi hs place
    | resumed bypasses place => exact hi hs place
    | appended offered published id =>
      subst published
      exact h.of_appended id hs
    | removed position named published =>
      subst published
      refine h.of_versions hs rfl fun row' hr' => hp row' ?_
      rw [position]
      simp only [mem_append, mem_cons] at hr' ⊢
      exact hr'.imp_right .inr
    | @restored entry bypasses named published =>
      subst published
      refine h.of_versions hs rfl fun row' hr' => ?_
      rcases mem_of_mem_insertById hr' with rfl | hq
      · exact ⟨row', hal row' (restores.trans named), rfl⟩
      · exact hp row' hq

theorem conserved_of_run {start} (hs : Stored clientId start)
    (hru : ReflTransGen (Moment.Step clientId) ⟨start, start.entries⟩ moment) :
    Conserved clientId moment := by
  refine Reach.invariant (fun _ _ h hst => ?_) ⟨hs, fun _ hr => hr, ?_, ?_⟩ hru
  · cases hst with
    | call world call client allowed => exact h.of_performed client allowed call.performed
  · exact fun row hr => (hs.wellFormed.listed row hr).below
  · intro row hr other hot hid
    have his : (start.entries.map (·.queueId)).Nodup :=
      pairwise_map.mpr (hs.wellFormed.ordered.imp fun h => Nat.ne_of_lt h.ids)
    obtain rfl := inj_on_of_nodup_map his hr hot hid
    rfl

/-- A row that is gone was named by a call that succeeded. -/
theorem CallOutcome.kept {world call outcome} (h : CallOutcome world call queue outcome) :
    ∀ row ∈ queue.entries, (∃ row' ∈ outcome.queue.entries, row.SameRow row') ∨
      call.removes = some row.jobId ∧ outcome.result = .ok () := by
  intro row hr
  cases h with
  | refused unpublished => exact .inl ⟨row, hr, rfl⟩
  | published records stored rows failed =>
    exact .inl ((rows.imp fun _ _ => QueueEntry.Moved.same).kept row hr)
  | @applied op next removes restores ha =>
    cases (op.apply_applied ha).edit with
    | revised rows => exact .inl (rows.inPlace.kept row hr)
    | started mem room place => exact .inl (place.kept row hr)
    | resumed bypasses place => exact .inl (place.kept row hr)
    | appended offered published id =>
      subst published
      exact .inl ⟨row, mem_append_left _ hr, rfl⟩
    | @removed before after gone position named published =>
      subst published
      rw [position, mem_append, mem_cons] at hr
      rcases hr with hb | rfl | haf
      · exact .inl ⟨row, mem_append_left _ hb, rfl⟩
      · exact .inr ⟨removes.trans named, rfl⟩
      · exact .inl ⟨row, mem_append_right _ haf, rfl⟩
    | @restored entry bypasses named published =>
      subst published
      rw [← split_by_id queue entry, mem_append] at hr
      refine .inl ⟨row, ?_, rfl⟩
      rw [insertById, mem_append, mem_cons]
      exact hr.imp_right .inr

/-- A call that was refused its publication changes nothing. One that fails later leaves what it
has published. -/
theorem CallOutcome.failed {world call outcome} (h : CallOutcome world call queue outcome) {error}
    (her : outcome.result = .error error) :
    (call.publishes world queue = .error error ∧ outcome.queue = queue) ∨
      (call.writesRecords = true ∧ call.publishes world queue = .ok outcome.queue ∧
        Steady QueueEntry.Moved queue outcome.queue) := by
  cases h with
  | refused unpublished => cases her; exact .inl ⟨unpublished, rfl⟩
  | applied removes restores ha => cases her
  | published records stored rows failed => exact .inr ⟨records, failed error her, rows⟩

end

/-- **Rows are conserved.** At every moment of a run the queue is valid and ordered by id, and
a queue id stands for the same row, with the same job, request and enqueue time, as at every
earlier moment. A call takes out no row but the one it names. A call that fails leaves the
queue alone, unless it has published the queue and task records were still to be written: then
the queue stays as published, every row in its place and only its state and permit changed. -/
theorem queue_conserved {clientId : ClientId} {start : QueueSnapshot} {moment : Moment}
    (hstart : Stored clientId start)
    (hrun : ReflTransGen (Moment.Step clientId) ⟨start, start.entries⟩ moment) :
    moment.queue.validate = .ok () ∧
      moment.queue.entries.Pairwise (fun row other => row.queueId < other.queueId) ∧
      (∀ row ∈ moment.past, row.queueId < moment.queue.nextId ∧
        ∀ row' ∈ moment.queue.entries, row'.queueId = row.queueId → row.SameRow row') ∧
      ∀ (world : World) (call : QueueCall), world.clientId = clientId → moment.Allows call →
        (call.perform world moment.queue).queue.validate = .ok () ∧
        (∀ row ∈ moment.queue.entries,
          (∃ row' ∈ (call.perform world moment.queue).queue.entries, row.SameRow row') ∨
            call.removes = some row.jobId ∧ (call.perform world moment.queue).result = .ok ()) ∧
        ∀ error, (call.perform world moment.queue).result = .error error →
          (call.publishes world moment.queue = .error error ∧
            (call.perform world moment.queue).queue = moment.queue) ∨
          (call.writesRecords = true ∧
            call.publishes world moment.queue = .ok (call.perform world moment.queue).queue ∧
            Steady QueueEntry.Moved moment.queue (call.perform world moment.queue).queue) := by
  have h := conserved_of_run hstart hrun
  refine ⟨QueueSnapshot.validate_iff.mpr h.stored.wellFormed,
    h.stored.wellFormed.ordered.imp Precedes.ids, fun row hr => ⟨h.below row hr, ?_⟩, ?_⟩
  · intro row' hr' hid
    exact h.unique row hr row' (h.present row' hr') hid.symm
  · intro world call hc ha
    have haf := h.of_performed hc ha call.performed
    exact ⟨QueueSnapshot.validate_iff.mpr haf.stored.wellFormed, call.performed.kept,
      fun error her => call.performed.failed her⟩

/-! ## Concrete queues -/

/-- A turn with a permit for a start. -/
def permitted : QueueEntry :=
  { QueueEntry.sample 1 ⟨1⟩ ⟨1, 1⟩ (.waiting ⟨1, 1⟩) 10 none with
    slotReservation := some ⟨⟨1, 1⟩, 5, none⟩ }

/-- The row is taken out, and its id is not handed out again. -/
theorem queue_conserved_permitted :
    let removed : Moment := ⟨⟨2, []⟩, [permitted]⟩
    removed.queue.validate = .ok () ∧ ∀ row ∈ removed.past, row.queueId < removed.queue.nextId := by
  have hst : Stored ⟨7⟩ ⟨2, [permitted]⟩ := by decide
  have hr : Moment.Step ⟨7⟩ ⟨⟨2, [permitted]⟩, [permitted]⟩ ⟨⟨2, []⟩, [permitted]⟩ := by
    have hs := @Moment.Step.call ⟨7⟩ ⟨⟨2, [permitted]⟩, [permitted]⟩
      (World.quiet ⟨7⟩) (.single (.removeTaskTurnForSubmissionRollback ⟨1⟩)) rfl
      (fun entry h => by cases h)
    have hou : (QueueCall.single (.removeTaskTurnForSubmissionRollback ⟨1⟩)).perform
        (World.quiet ⟨7⟩) ⟨2, [permitted]⟩ = ⟨⟨2, []⟩, .ok ()⟩ := by decide
    rw [hou] at hs
    exact hs
  have h := queue_conserved hst (.single hr)
  exact ⟨h.1, fun row hro => (h.2.2.1 row hro).1⟩

/-- The task of a turn has no record: completing its start fails, and the queue has the new
owner already. -/
theorem completion_fails_published :
    (QueueCall.completeRunnerSpawn ⟨9⟩ ⟨1⟩ 5 ⟨2, 2⟩ none).perform (World.quiet ⟨7⟩)
        ⟨2, [permitted]⟩ =
      ⟨⟨2, [{ permitted with
        state := .waiting ⟨2, 2⟩, slotReservation := some ⟨⟨1, 1⟩, 5, some ⟨2, 2⟩⟩ }]⟩,
        .error .notFound⟩ := by
  decide

end MacWorker.Queue
