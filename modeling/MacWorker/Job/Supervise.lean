import MacWorker.Job.Outcome
import MacWorker.Lib.Durable
import Mathlib.Algebra.Group.Int.Defs

/-! # The status path of a supervisor

A supervisor writes the status of its job four times: its own identity, the identity of
the child, the running state and the end. It reads the wall clock again before each write,
and `JobStatus.transition` compares the reading with the time of the status before. The
state of these programs is the stored status. -/
namespace MacWorker.Job
open Fallible Durable
open Prog (run_bind lift_reads bind_fails run_attempt get_reads answer_bind_of_reads require_reads
  answer_bind_of_ok)

/-- A reading of the wall clock, in milliseconds since the Unix epoch. -/
def nowMillis (reading : Int) : Except WorkerError Nat := do
  ensure (0 ≤ reading) (.protocol "system clock precedes the Unix epoch")
  ensure (reading < 2 ^ 64) (.protocol "system clock is outside the supported range")
  pure reading.toNat

theorem nowMillis_eq_ok {reading now} :
    nowMillis reading = .ok now ↔ reading = now ∧ now < 2 ^ 64 := by
  simp only [nowMillis, then_eq_ok, ensure_eq_ok, pure_eq_ok]
  constructor
  · rintro ⟨h0, hlt, rfl⟩
    omega
  · rintro ⟨rfl, hlt⟩
    exact ⟨by omega, by omega, Int.toNat_natCast now⟩

/-! ## Waiting for the child -/

/-- The end a child comes to by itself: when, in milliseconds of the monotonic
clock since the wait began, and how. -/
structure ChildEnd where
  after : Nat
  outcome : ChildOutcome
  own : outcome ≠ .timedOut

/-- A child that may end, and the instants at which the wait looks at it. After
the poll that passes the deadline the child is looked at once more before it is
killed. -/
structure Waiting where
  childEnd : Option ChildEnd
  (poll recheck : Nat → Nat)
  advances : ∀ k, k ≤ poll k
  rechecked : ∀ k, poll k ≤ recheck k

namespace Waiting

def waitable (w : Waiting) (instant : Nat) : Option ChildOutcome :=
  match w.childEnd with
  | some e => if e.after ≤ instant then some e.outcome else none
  | none => none

def loop (w : Waiting) (timeoutMillis : Nat) : Nat → Nat → ChildOutcome
  | 0, _ => .timedOut
  | fuel + 1, k =>
    match w.waitable (w.poll k) with
    | some outcome => outcome
    | none =>
      if timeoutMillis ≤ w.poll k then (w.waitable (w.recheck k)).getD .timedOut
      else w.loop timeoutMillis fuel (k + 1)

/-- The polls advance, so the one with the number of the timeout is the last. -/
def waitForChild (w : Waiting) (timeoutMillis : Nat) : ChildOutcome :=
  w.loop timeoutMillis (timeoutMillis + 1) 0

theorem waitable_ne_timedOut {w : Waiting} {instant : Nat} {outcome : ChildOutcome}
    (h : w.waitable instant = some outcome) : outcome ≠ .timedOut := by
  unfold waitable at h
  split at h
  · split at h
    · cases h; exact ChildEnd.own _
    · cases h
  · cases h

theorem loop_timedOut {w : Waiting} {timeout : Nat} : ∀ fuel k, k ≤ timeout → timeout < fuel + k →
    w.loop timeout fuel k = .timedOut → ∃ k, timeout ≤ w.poll k ∧ w.waitable (w.poll k) = none
  | 0, k, hk, hf, _ => by omega
  | fuel + 1, k, hk, hf, h => by
    unfold loop at h
    split at h
    · next outcome hw => exact absurd h (waitable_ne_timedOut hw)
    · next hw =>
      split at h
      · next hle => exact ⟨k, hle, hw⟩
      · next hle =>
        have := w.advances k
        exact loop_timedOut fuel (k + 1) (by omega) (by omega) h

end Waiting

/-! ## The supervisor -/

/-- What a run of the supervisor meets. The clock gives one reading after the
other, with no relation between them. -/
structure Surroundings where
  clock : Nat → Int
  supervisor : ProcessIdentity
  supervisorValid : supervisor.Valid
  child : ProcessIdentity
  childValid : child.Valid
  expiresAtMillis : Nat
  waiting : Waiting
  (stdoutLength stderrLength : Nat)
  setup : Option SetupStageResult

abbrev StatusProg := Prog WorkerError JobStatus

def replaceStatus (expected replacement : JobStatus) : StatusProg Unit := do
  liftM (expected.transition replacement)
  let current ← Prog.get
  Prog.require (current = expected) (.invalidState "status.json changed")
  Prog.write fun _ => replacement

section
variable (env : Surroundings)

def remainingLeaseMillis (reading : Int) : Except WorkerError Nat := do
  pure (env.expiresAtMillis - (← nowMillis reading))

/-- End a job whose child never ran. The caller's error is the answer. -/
def finishTurnPrelaunchFailure (reading : Int) (status : JobStatus) (code : String)
    (original : WorkerError) : StatusProg Unit := do
  let now ← liftM (nowMillis reading)
  let terminal ← liftM (status.toInfrastructureTerminal .lost now env.stdoutLength env.stderrLength
    code)
  replaceStatus status terminal
  Prog.fail original

/-- End a job of which it is not known whether its child ran. -/
def finishTurnAmbiguous (status : JobStatus) (code : String) (original : WorkerError) :
    StatusProg Unit := do
  let _ ← liftM (remainingLeaseMillis env (env.clock 3))
  let now ← liftM (nowMillis (env.clock 4))
  let terminal ← liftM (status.toInfrastructureTerminal .lost now env.stdoutLength env.stderrLength
    code)
  replaceStatus status terminal
  Prog.fail original

def writeStatus (reading : Int) (status : JobStatus)
    (next : Nat → Except WorkerError JobStatus) : StatusProg JobStatus := do
  let now ← liftM (nowMillis reading)
  let replacement ← liftM (next now)
  replaceStatus status replacement
  pure replacement

def finishTurn (status : JobStatus) (outcome : ChildOutcome) : StatusProg Unit := do
  let current ← Prog.get
  if current.state.isTerminal = true then pure ()
  else do
    Prog.require (current = status)
      (.protocol "STATUS_CHANGED: running status changed during supervisor handoff")
    let now ← liftM (nowMillis (env.clock 4))
    let terminal ← liftM (terminalFromSetupOrOutcome current outcome env.setup now
      env.stdoutLength env.stderrLength)
    replaceStatus current terminal.status

def runAfterExec (status : JobStatus) : StatusProg Unit := do
  match ← (writeStatus (env.clock 2) status status.toRunning).attempt with
  | .error error => finishTurnAmbiguous env status "RUNNING_STATUS_WRITE_FAILED" error
  | .ok running => do
    let timeout ← liftM (remainingLeaseMillis env (env.clock 3))
    finishTurn env running (env.waiting.waitForChild timeout)

/-- The gated child is there. It runs only after its identity is stored. -/
def runTurnAfterPayload (status : JobStatus) : StatusProg Unit := do
  match ← (writeStatus (env.clock 1) status (status.withChild env.child)).attempt with
  | .error error =>
    finishTurnPrelaunchFailure env (env.clock 2) status "CHILD_STATUS_WRITE_FAILED" error
  | .ok childStatus => runAfterExec env childStatus

def runWithGuard : StatusProg Unit := do
  let status ← Prog.get
  Prog.require (status.state = .accepted ∧ status.supervisor = none)
    (.protocol "SUPERVISOR_ALREADY_RECORDED: durable supervisor identity already exists")
  let supervised ← writeStatus (env.clock 0) status (status.withSupervisor env.supervisor)
  runTurnAfterPayload env supervised

end

/-! ## Reconciliation -/

def reconciliationTimestamp (reading : Int) (previous : Nat) : Except WorkerError Nat := do
  pure (max (← nowMillis reading) previous)

/-- A status call that finds the supervisor gone. A terminal status stays, a
job without a supervisor is left to the next launch, and every other job is
lost. -/
def reconcileOrphan (reading : Int) (stdoutLength stderrLength : Nat) : StatusProg Unit := do
  let current ← Prog.get
  if current.state.isTerminal = true then pure ()
  else if current.supervisor = none then pure ()
  else do
    let now ← liftM (reconciliationTimestamp reading current.updatedAtMillis)
    let lost ← liftM (current.toInfrastructureTerminal .lost now stdoutLength stderrLength
      "SUPERVISOR_LOST")
    replaceStatus current lost

/-! ## Readings that go forward -/

/-- A reading that the clock supports and that is not before `since`. -/
def Later (reading : Int) (since : Nat) : Prop := since ≤ reading ∧ reading < 2 ^ 64

instance (reading : Int) (since : Nat) : Decidable (Later reading since) :=
  inferInstanceAs (Decidable (_ ∧ _))

theorem later_iff {reading since} :
    Later reading since ↔ ∃ now : Nat, nowMillis reading = .ok now ∧ since ≤ now := by
  simp only [nowMillis_eq_ok, Later]
  constructor
  · intro h
    exact ⟨reading.toNat, by omega, by omega⟩
  · rintro ⟨now, ⟨rfl, hlt⟩, hle⟩
    omega

theorem Later.now {reading since} (h : Later reading since) :
    nowMillis reading = .ok reading.toNat := by
  rw [nowMillis_eq_ok]
  unfold Later at h
  omega

theorem replaceStatus_run {status next} (h : status.Steps next) :
    replaceStatus status next status = ([next], .ok ()) := by
  have ht : status.transition next = .ok () := JobStatus.transition_eq_ok.2 h
  exact run_bind (lift_reads ht) (run_bind (get_reads _)
    (run_bind (require_reads rfl) rfl))

section
variable {status : JobStatus} {next : Nat → Except WorkerError JobStatus} {value : Nat → JobStatus}
  {reading : Int}

theorem writeStatus_run (hs : ∀ now t, next now = .ok t → status.Steps t)
    (hn : ∀ now t, next now = .ok t ↔ status.updatedAtMillis ≤ now ∧ value now = t)
    (h : Later reading status.updatedAtMillis) :
    writeStatus reading status next status =
      ([value reading.toNat], .ok (value reading.toNat)) := by
  have hle : status.updatedAtMillis ≤ reading.toNat := by unfold Later at h; omega
  have hv : next reading.toNat = .ok (value reading.toNat) := (hn _ _).2 ⟨hle, rfl⟩
  unfold writeStatus
  rw [Prog.bind_of_reads (lift_reads h.now), Prog.bind_of_reads (lift_reads hv),
    Prog.bind_of_ok (replaceStatus_run (hs _ _ hv))]
  rfl

theorem writeStatus_refused
    (hn : ∀ now t, next now = .ok t ↔ status.updatedAtMillis ≤ now ∧ value now = t)
    (h : ¬ Later reading status.updatedAtMillis) :
    ∃ e, writeStatus reading status next status = ([], .error e) := by
  unfold writeStatus
  cases hno : nowMillis reading with
  | error e => exact ⟨e, Prog.bind_of_error rfl⟩
  | ok now =>
    rw [Prog.bind_of_reads (lift_reads rfl)]
    cases ht : next now with
    | error e => exact ⟨e, Prog.bind_of_error rfl⟩
    | ok t => exact absurd (later_iff.2 ⟨now, hno, ((hn now t).1 ht).1⟩) h

end

section
variable (env : Surroundings) (acceptedAt : Nat)

/-- The readings that are stored go forward, and all are supported. -/
structure Forward : Prop where
  supervisor : Later (env.clock 0) acceptedAt
  child : Later (env.clock 1) (env.clock 0).toNat
  running : Later (env.clock 2) (env.clock 1).toNat
  deadline : Later (env.clock 3) 0
  terminal : Later (env.clock 4) (env.clock 2).toNat

def supervisedStatus : JobStatus :=
  { JobStatus.accepted acceptedAt with
    updatedAtMillis := (env.clock 0).toNat
    supervisor := some env.supervisor }

def childStatus : JobStatus :=
  { supervisedStatus env acceptedAt with
    updatedAtMillis := (env.clock 1).toNat
    child := some env.child }

def runningStatus : JobStatus :=
  ⟨.running, (env.clock 2).toNat, some env.supervisor, some env.child, none, none, none, none, none,
    none⟩

/-- The time the child is given, fixed when the wait begins. -/
def givenMillis : Nat := env.expiresAtMillis - (env.clock 3).toNat

theorem valid_supervisedStatus : (supervisedStatus env acceptedAt).Valid :=
  { JobStatus.valid_accepted acceptedAt with
    supervisor := fun _ h => by cases h; exact env.supervisorValid
    supervised := nofun
    running := nofun }

theorem valid_childStatus : (childStatus env acceptedAt).Valid :=
  { valid_supervisedStatus env acceptedAt with
    child := fun _ h => by cases h; exact env.childValid
    supervised := fun _ => rfl
    running := nofun }

theorem valid_runningStatus : (runningStatus env).Valid where
  supervisor _ h := by cases h; exact env.supervisorValid
  child _ h := by cases h; exact env.childValid
  supervised _ := rfl
  running _ := ⟨rfl, rfl⟩
  lengths := rfl
  terminal := rfl
  outcome := rfl
  errorCode := nofun
  cleanup := nofun

/-! ### Each part of the path -/

theorem finishTurnPrelaunchFailure_fails (reading : Int) (status s : JobStatus) (code : String)
    (original : WorkerError) :
    ∃ e, (finishTurnPrelaunchFailure env reading status code original).answer s = .error e :=
  bind_fails (fun _ _ => bind_fails (fun _ _ => bind_fails
    (fun _ _ => ⟨original, rfl⟩) _) _) _

theorem finishTurnAmbiguous_fails (status s : JobStatus) (code : String) (original : WorkerError) :
    ∃ e, (finishTurnAmbiguous env status code original).answer s = .error e :=
  bind_fails (fun _ _ => bind_fails (fun _ _ => bind_fails (fun _ _ =>
    bind_fails (fun _ _ => ⟨original, rfl⟩) _) _) _) _

variable {env} {acceptedAt}
variable (hsetup : ∀ setup, env.setup = some setup → setup.decides = false)
include hsetup

theorem finishTurn_run (outcome : ChildOutcome) (h : Later (env.clock 4) (env.clock 2).toNat) :
    finishTurn env (runningStatus env) outcome (runningStatus env) =
      ([outcome.terminalStatus (runningStatus env) (env.clock 4).toNat env.stdoutLength
        env.stderrLength], .ok ()) := by
  have hle : (runningStatus env).updatedAtMillis ≤ (env.clock 4).toNat := by
    unfold Later at h; simp only [runningStatus]; omega
  have hen : ∃ terminal, outcomeTerminal (runningStatus env) outcome (env.clock 4).toNat
      env.stdoutLength env.stderrLength = .ok terminal ∧ terminal.status = _ :=
    (outcomeTerminal_status (valid_runningStatus env) rfl).2 ⟨hle, rfl⟩
  obtain ⟨terminal, ht, hs⟩ := hen
  rw [← terminalFromSetupOrOutcome_of_undecided hsetup] at ht
  rw [← hs]
  refine run_bind (get_reads _) (run_bind (require_reads rfl)
    (run_bind (lift_reads h.now) (run_bind (lift_reads ht) ?_)))
  rw [terminalFromSetupOrOutcome_of_undecided hsetup] at ht
  exact replaceStatus_run (outcomeTerminal_recovery ht).1

theorem finishTurn_fails (outcome : ChildOutcome) (h : ¬ Later (env.clock 4) (env.clock 2).toNat) :
    ∃ e, (finishTurn env (runningStatus env) outcome).answer (runningStatus env) = .error e := by
  have hr : ¬ (runningStatus env).state.isTerminal = true := by
    simp [runningStatus, JobState.isTerminal]
  unfold finishTurn
  rw [answer_bind_of_reads (get_reads _), if_neg hr,
    answer_bind_of_reads (require_reads rfl)]
  cases hn : nowMillis (env.clock 4) with
  | error e => exact ⟨e, Prog.answer_bind_of_error rfl⟩
  | ok now =>
    rw [answer_bind_of_reads (lift_reads rfl),
      terminalFromSetupOrOutcome_of_undecided hsetup]
    cases ht : outcomeTerminal (runningStatus env) outcome now env.stdoutLength
        env.stderrLength with
    | error e => exact ⟨e, Prog.answer_bind_of_error rfl⟩
    | ok terminal =>
      have hle := ((outcomeTerminal_status (valid_runningStatus env) rfl).1 ⟨terminal, ht, rfl⟩).1
      exact absurd (later_iff.2 ⟨now, hn, hle⟩) h

omit hsetup in
theorem writeSupervisor_eq_ok (now : Nat) (t : JobStatus) :
    (JobStatus.accepted acceptedAt).withSupervisor env.supervisor now = .ok t ↔
      (JobStatus.accepted acceptedAt).updatedAtMillis ≤ now ∧
        { JobStatus.accepted acceptedAt with
          updatedAtMillis := now
          supervisor := some env.supervisor } = t :=
  JobStatus.withSupervisor_eq_ok (JobStatus.valid_accepted acceptedAt) rfl rfl env.supervisorValid

omit hsetup in
theorem writeChild_eq_ok (now : Nat) (t : JobStatus) :
    (supervisedStatus env acceptedAt).withChild env.child now = .ok t ↔
      (supervisedStatus env acceptedAt).updatedAtMillis ≤ now ∧
        { supervisedStatus env acceptedAt with
          updatedAtMillis := now
          child := some env.child } = t :=
  JobStatus.withChild_eq_ok (valid_supervisedStatus env acceptedAt) rfl rfl rfl env.childValid

omit hsetup in
theorem writeRunning_eq_ok (now : Nat) (t : JobStatus) :
    (childStatus env acceptedAt).toRunning now = .ok t ↔
      (childStatus env acceptedAt).updatedAtMillis ≤ now ∧
        ⟨.running, now, some env.supervisor, some env.child, none, none, none, none, none,
          none⟩ = t :=
  JobStatus.toRunning_eq_ok (valid_childStatus env acceptedAt) rfl rfl rfl

omit hsetup in
theorem writeSupervisor_run (h : Later (env.clock 0) acceptedAt) :
    writeStatus (env.clock 0) (.accepted acceptedAt)
      ((JobStatus.accepted acceptedAt).withSupervisor env.supervisor) (.accepted acceptedAt) =
        ([supervisedStatus env acceptedAt], .ok (supervisedStatus env acceptedAt)) :=
  writeStatus_run (fun _ _ => JobStatus.steps_of_withSupervisor) writeSupervisor_eq_ok h

omit hsetup in
theorem writeChild_run (h : Later (env.clock 1) (env.clock 0).toNat) :
    writeStatus (env.clock 1) (supervisedStatus env acceptedAt)
      ((supervisedStatus env acceptedAt).withChild env.child) (supervisedStatus env acceptedAt) =
        ([childStatus env acceptedAt], .ok (childStatus env acceptedAt)) :=
  writeStatus_run (fun _ _ => JobStatus.steps_of_withChild) writeChild_eq_ok h

omit hsetup in
theorem writeRunning_run (h : Later (env.clock 2) (env.clock 1).toNat) :
    writeStatus (env.clock 2) (childStatus env acceptedAt) (childStatus env acceptedAt).toRunning
      (childStatus env acceptedAt) = ([runningStatus env], .ok (runningStatus env)) :=
  writeStatus_run (fun _ _ => JobStatus.steps_of_toRunning) writeRunning_eq_ok h

omit hsetup in
theorem remainingLeaseMillis_eq_ok (h : Later (env.clock 3) 0) :
    remainingLeaseMillis env (env.clock 3) = .ok (givenMillis env) := by
  unfold remainingLeaseMillis
  rw [h.now]
  rfl

theorem runWithGuard_run (h : Forward env acceptedAt) : runWithGuard env (.accepted acceptedAt) =
      ([supervisedStatus env acceptedAt, childStatus env acceptedAt, runningStatus env,
        (env.waiting.waitForChild (givenMillis env)).terminalStatus (runningStatus env)
          (env.clock 4).toNat env.stdoutLength env.stderrLength], .ok ()) := by
  have hex : runAfterExec env (childStatus env acceptedAt) (childStatus env acceptedAt) = _ :=
    run_bind (run_attempt (writeRunning_run h.running))
      (run_bind (lift_reads (remainingLeaseMillis_eq_ok h.deadline))
        (finishTurn_run hsetup _ h.terminal))
  exact run_bind (get_reads _) (run_bind (require_reads ⟨rfl, rfl⟩)
    (run_bind (writeSupervisor_run h.supervisor)
      (run_bind (run_attempt (writeChild_run h.child)) hex)))

theorem runAfterExec_fails (h : ¬ (Later (env.clock 2) (env.clock 1).toNat ∧
    Later (env.clock 3) 0 ∧ Later (env.clock 4) (env.clock 2).toNat)) :
    ∃ e, (runAfterExec env (childStatus env acceptedAt)).answer (childStatus env acceptedAt) =
      .error e := by
  unfold runAfterExec
  by_cases hr : Later (env.clock 2) (env.clock 1).toNat
  · rw [answer_bind_of_ok (run_attempt (writeRunning_run hr))]
    by_cases hd : Later (env.clock 3) 0
    · rw [answer_bind_of_reads (lift_reads (remainingLeaseMillis_eq_ok hd))]
      exact finishTurn_fails hsetup _ fun ht => h ⟨hr, hd, ht⟩
    · cases hre : remainingLeaseMillis env (env.clock 3) with
      | error e => exact ⟨e, Prog.answer_bind_of_error rfl⟩
      | ok timeout =>
        simp only [remainingLeaseMillis, bind_eq_ok] at hre
        obtain ⟨now, hn, -⟩ := hre
        exact absurd (later_iff.2 ⟨now, hn, Nat.zero_le _⟩) hd
  · obtain ⟨e, he⟩ := writeStatus_refused (@writeRunning_eq_ok env acceptedAt) hr
    rw [answer_bind_of_ok (run_attempt he)]
    exact finishTurnAmbiguous_fails env _ _ _ _

theorem runWithGuard_fails (h : ¬ Forward env acceptedAt) :
    ∃ e, (runWithGuard env).answer (.accepted acceptedAt) = .error e := by
  unfold runWithGuard
  rw [answer_bind_of_reads (get_reads _),
    answer_bind_of_reads (require_reads ⟨rfl, rfl⟩)]
  by_cases hs : Later (env.clock 0) acceptedAt
  · rw [answer_bind_of_ok (writeSupervisor_run hs)]
    show ∃ e, (runTurnAfterPayload env (supervisedStatus env acceptedAt)).answer
      (supervisedStatus env acceptedAt) = .error e
    unfold runTurnAfterPayload
    by_cases hc : Later (env.clock 1) (env.clock 0).toNat
    · rw [answer_bind_of_ok (run_attempt (writeChild_run hc))]
      exact runAfterExec_fails hsetup fun hex =>
        h ⟨hs, hc, hex.1, hex.2.1, hex.2.2⟩
    · obtain ⟨e, he⟩ := writeStatus_refused (@writeChild_eq_ok env acceptedAt) hc
      rw [answer_bind_of_ok (run_attempt he)]
      exact finishTurnPrelaunchFailure_fails env _ _ _ _ _
  · obtain ⟨e, he⟩ := writeStatus_refused writeSupervisor_eq_ok hs
    exact ⟨e, Prog.answer_bind_of_error he⟩

end

/-! ## The outcome of a turn -/

/-- The status after any number of later status calls, each with its reading of
the clock and the lengths of the logs it finds. -/
def reconcileAll (calls : List (Int × Nat × Nat)) (status : JobStatus) : JobStatus :=
  calls.foldl (fun s call => (reconcileOrphan call.1 call.2.1 call.2.2).final s) status

theorem reconcileAll_terminal {status} (h : status.state.isTerminal = true) :
    ∀ calls, reconcileAll calls status = status
  | [] => rfl
  | call :: calls => by
    have hs : (reconcileOrphan call.1 call.2.1 call.2.2).final status = status := by
      have hr : reconcileOrphan call.1 call.2.1 call.2.2 status = ([], .ok ()) := by
        refine run_bind (get_reads _) ?_
        rw [if_pos h]
        rfl
      unfold Prog.final
      rw [hr]
      rfl
    unfold reconcileAll
    rw [List.foldl_cons, hs]
    exact reconcileAll_terminal h calls

/-- **A turn's outcome survives the clock exactly when the readings go forward.** The
supervisor of an accepted job, met by any readings of the wall clock and any end of its
child, with no failure of the setup stage: if the readings before the four writes go
forward and every reading is supported, the writes are accepted, the job ends as its child
ended, it is timed out only if the deadline fixed at the start of the wait has passed, and
no later status call changes that. Otherwise a write is refused and the supervisor
fails. -/
theorem outcome_survives_forward_clock (env : Surroundings) (acceptedAt : Nat)
    (hsetup : ∀ setup, env.setup = some setup → setup.decides = false) :
    let outcome := env.waiting.waitForChild (givenMillis env)
    let run := runWithGuard env (.accepted acceptedAt)
    (run.2 = .ok () ↔ Forward env acceptedAt) ∧
    (Forward env acceptedAt → ∃ terminal,
      run = ([supervisedStatus env acceptedAt, childStatus env acceptedAt, runningStatus env,
        terminal], .ok ()) ∧
      terminal.state = outcome.state ∧
      (outcome = .timedOut → ∃ k, givenMillis env ≤ env.waiting.poll k ∧
        env.waiting.waitable (env.waiting.poll k) = none) ∧
      ∀ calls, reconcileAll calls terminal = terminal) := by
  intro outcome run
  have hf : Forward env acceptedAt → run = _ := runWithGuard_run hsetup
  refine ⟨⟨fun hok => ?_, fun h => by rw [hf h]⟩, fun h => ?_⟩
  · by_contra h
    obtain ⟨e, he⟩ := runWithGuard_fails hsetup h
    rw [show (runWithGuard env).answer (.accepted acceptedAt) = .ok () from hok] at he
    cases he
  · have ht : (outcome.terminalStatus (runningStatus env) (env.clock 4).toNat
        env.stdoutLength env.stderrLength).state.isTerminal = true := by
      rw [ChildOutcome.terminalStatus_state]
      exact outcome.state_terminal
    exact ⟨_, hf h, outcome.terminalStatus_state _ _ _ _,
      Waiting.loop_timedOut _ 0 (Nat.zero_le _) (by omega), reconcileAll_terminal ht⟩

/-- A child that exits with code zero at once, under a clock that goes forward. -/
def steadySurroundings : Surroundings where
  clock k := 10 + k
  supervisor := ⟨1, 1⟩
  supervisorValid := by decide
  child := ⟨2, 1⟩
  childValid := by decide
  expiresAtMillis := 1000
  waiting :=
    { childEnd := some ⟨0, .exited 0, by decide⟩
      poll := id
      recheck := id
      advances := fun _ => Nat.le_refl _
      rechecked := fun _ => Nat.le_refl _ }
  stdoutLength := 3
  stderrLength := 0
  setup := none

theorem forward_steadySurroundings : Forward steadySurroundings 9 := by
  constructor <;> decide

theorem outcome_survives_forward_clock_exit :
    Forward steadySurroundings 9 ∧ ∃ terminal : JobStatus, terminal.state = .succeeded ∧
      (runWithGuard steadySurroundings).final (.accepted 9) = terminal := by
  have hsetup : ∀ setup, steadySurroundings.setup = some setup → setup.decides = false := by
    intro setup h; cases h
  obtain ⟨terminal, hr, hs, -⟩ :=
    (outcome_survives_forward_clock steadySurroundings 9 hsetup).2 forward_steadySurroundings
  refine ⟨forward_steadySurroundings, terminal, hs, ?_⟩
  unfold Prog.final
  rw [hr]
  rfl

/-- The same run, with a clock that is set back before the last reading. -/
def setBackSurroundings : Surroundings :=
  { steadySurroundings with clock := fun k => if k = 4 then 5 else 10 + k }

/-- The child exits with code zero, but the clock is set back while it runs: the
write of the end is refused, the job stays running without its supervisor, and
the next status call declares it lost. -/
theorem clock_set_back_loses_outcome :
    setBackSurroundings.waiting.waitForChild (givenMillis setBackSurroundings) = .exited 0 ∧
    (runWithGuard setBackSurroundings).answer (.accepted 9) =
      .error (.protocol "job status timestamp moved backwards") ∧
    ((runWithGuard setBackSurroundings).final (.accepted 9)).state = .running ∧
    (reconcileAll [(20, 3, 0)] ((runWithGuard setBackSurroundings).final (.accepted 9))).state =
      .lost := by
  refine ⟨by decide, by decide, by decide, by decide⟩

end MacWorker.Job
