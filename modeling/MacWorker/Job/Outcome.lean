import MacWorker.Job.Status
import MacWorker.Task

/-! # From the end of a child to the end of its job

How the supervisor turns what it saw of its child into a terminal status, and
how recovery reads the same facts back from that status. -/
namespace MacWorker.Job
open Fallible

/-- A waited-for child either exited, or was killed by a signal, or was stopped
by the supervisor at its deadline. -/
inductive ChildOutcome where
  | exited (code : UInt8)
  | signalled (signal : UInt32) (nonzero : signal ≠ 0)
  | timedOut
  deriving DecidableEq

inductive TerminalPath where
  | childExit (code : Int)
  | timeout
  | prelaunchFailure
  | ambiguousChild
  | hostCancel
  | lostReconciliation
  deriving DecidableEq

/-- The failure record of the setup stage, as the helper leaves it. -/
structure SetupStageResult where
  code : String

namespace SetupStageResult

/-- The codes that decide how the job ends. -/
def decides (setup : SetupStageResult) : Bool :=
  setup.code == "SETUP_TIMEOUT" || setup.code == "SETUP_CANCELLED" || setup.code == "SETUP_FAILED"

end SetupStageResult

/-- The status a supervisor ends with, and what it publishes for the turn. -/
structure Terminal where
  status : JobStatus
  kind : TurnTerminal
  exitCode : Option Int
  path : TerminalPath
  deriving DecidableEq

def outcomeCode : ChildOutcome → Int
  | .exited code => code.toNat
  | .signalled signal _ => if signal.toNat < 2 ^ 31 then -signal.toNat else -1
  | .timedOut => -1

def outcomeTerminal (current : JobStatus) (outcome : ChildOutcome) (now stdout stderr : Nat) :
    Except WorkerError Terminal :=
  match outcome with
  | .exited code =>
    if code = 0 then do
      pure ⟨← current.toSucceeded now stdout stderr, .succeeded, some 0, .childExit 0⟩
    else do
      pure ⟨← current.toFailedExit now code stdout stderr, .failed, some code.toNat,
        .childExit code.toNat⟩
  | .signalled signal _ => do
    pure ⟨← current.toFailedSignal now signal stdout stderr, .cancelled, none,
      .childExit (outcomeCode outcome)⟩
  | .timedOut => do
    pure ⟨← current.toInfrastructureTerminal .timedOut now stdout stderr "COMMAND_TIMEOUT",
      .timedOut, none, .timeout⟩

def terminalFromSetupOrOutcome (current : JobStatus) (outcome : ChildOutcome)
    (setup : Option SetupStageResult) (now stdout stderr : Nat) : Except WorkerError Terminal :=
  match setup with
  | none => outcomeTerminal current outcome now stdout stderr
  | some setup =>
    if setup.code = "SETUP_TIMEOUT" then do
      pure ⟨← current.toInfrastructureTerminal .timedOut now stdout stderr "SETUP_TIMEOUT",
        .timedOut, none, .timeout⟩
    else if setup.code = "SETUP_CANCELLED" then do
      pure ⟨← current.toInfrastructureTerminal .cancelled now stdout stderr "SETUP_CANCELLED",
        .cancelled, none, .hostCancel⟩
    else if setup.code = "SETUP_FAILED" then do
      pure ⟨← current.toInfrastructureTerminal .lost now stdout stderr "SETUP_FAILED",
        .lost, none, .prelaunchFailure⟩
    else outcomeTerminal current outcome now stdout stderr

/-- What a later call publishes for a job it finds ended. -/
def terminalTurnRecovery (status : JobStatus) :
    Except WorkerError (TurnTerminal × TerminalPath × Option Int) :=
  match status.state with
  | .succeeded => pure (.succeeded, .childExit ((status.exitCode.map UInt8.toNat).getD 0),
      status.exitCode.map fun code => (code.toNat : Int))
  | .failed =>
    match status.exitCode, status.terminatingSignal with
    | some code, _ => pure (.failed, .childExit code.toNat, some code.toNat)
    | none, some signal =>
      pure (.cancelled, .childExit (if signal.toNat < 2 ^ 31 then -signal.toNat else -1), none)
    | none, none => .error
      (.protocol "JOB_STATE_INVALID: failed turn status has no command outcome")
  | .cancelled => pure (.cancelled, .hostCancel, none)
  | .timedOut => pure (.timedOut, .timeout, none)
  | .lost => pure (.lost, .lostReconciliation, none)
  | _ => .error (.protocol
      "JOB_STATE_INVALID: turn publication recovery requires a terminal job status")

def ChildOutcome.state : ChildOutcome → JobState
  | .exited code => if code = 0 then .succeeded else .failed
  | .signalled _ _ => .failed
  | .timedOut => .timedOut

variable {current : JobStatus} {terminal : Terminal} (outcome : ChildOutcome)

def ChildOutcome.terminalStatus (running : JobStatus) (now stdout stderr : Nat) : JobStatus :=
  let base : JobStatus := ⟨outcome.state, now, running.supervisor, running.child, none, none,
    some stdout, some stderr, none, none⟩
  match outcome with
  | .exited code => { base with exitCode := some code }
  | .signalled signal _ => { base with terminatingSignal := some signal }
  | .timedOut => { base with errorCode := some "COMMAND_TIMEOUT" }

@[simp] theorem ChildOutcome.terminalStatus_state (running : JobStatus) (now stdout stderr : Nat) :
    (outcome.terminalStatus running now stdout stderr).state = outcome.state := by
  cases outcome <;> rfl

theorem ChildOutcome.state_terminal : outcome.state.isTerminal = true := by
  cases outcome with
  | exited code => by_cases hz : code = 0 <;> simp [state, hz, JobState.isTerminal]
  | signalled => rfl
  | timedOut => rfl

theorem exists_terminal_iff {x t kind exitCode path} :
    (∃ terminal, (do pure ⟨← x, kind, exitCode, path⟩ : Except WorkerError Terminal) =
      .ok terminal ∧
      terminal.status = t) ↔ x = .ok t := by
  simp only [bind_eq_ok, pure_eq_ok]
  constructor
  · rintro ⟨_, ⟨s, hs, rfl⟩, rfl⟩
    exact hs
  · intro h
    exact ⟨_, ⟨t, h, rfl⟩, rfl⟩

/-- From a running status the terminal status is refused for its time alone. -/
theorem outcomeTerminal_status {running t outcome now stdout stderr} (hv : running.Valid)
    (hr : running.state = .running) :
    (∃ terminal, outcomeTerminal running outcome now stdout stderr = .ok terminal ∧
        terminal.status = t) ↔
      running.updatedAtMillis ≤ now ∧ outcome.terminalStatus running now stdout stderr = t := by
  have hto : ∀ state : JobState, JobState.running.canTransitionTo state = true →
      running.state.canTransitionTo state = true := by
    intro state h; rw [hr]; exact h
  have hn : ∀ code : String, none = some code → NonNul code 128 := by simp
  cases outcome with
  | exited code =>
    by_cases hz : code = 0
    · subst hz
      simp only [outcomeTerminal, if_true, exists_terminal_iff]
      exact JobStatus.transitionToTerminal_eq_ok hv (hto .succeeded rfl) rfl rfl hn
    · have hf : JobStatus.outcomeFits .failed (some code) none = true := by
        simpa [JobStatus.outcomeFits] using hz
      have hs : (ChildOutcome.exited code).state = .failed := if_neg hz
      simp only [outcomeTerminal, if_neg hz, exists_terminal_iff, ChildOutcome.terminalStatus, hs]
      exact JobStatus.transitionToTerminal_eq_ok hv (hto .failed rfl) rfl hf hn
  | signalled signal hsi =>
    have hf : JobStatus.outcomeFits .failed none (some signal) = true := by
      simpa [JobStatus.outcomeFits] using hsi
    simp only [outcomeTerminal, exists_terminal_iff]
    exact JobStatus.transitionToTerminal_eq_ok hv (hto .failed rfl) rfl hf hn
  | timedOut =>
    have hc : ∀ code, some "COMMAND_TIMEOUT" = some code → NonNul code 128 := by
      intro code h; cases h; decide
    simp only [outcomeTerminal, exists_terminal_iff, JobStatus.toInfrastructureTerminal,
      then_eq_ok, ensure_eq_ok]
    rw [JobStatus.transitionToTerminal_eq_ok hv (hto .timedOut rfl) rfl rfl hc]
    simp [ChildOutcome.terminalStatus, ChildOutcome.state]

theorem terminalFromSetupOrOutcome_of_undecided {outcome setup now stdout stderr}
    (h : ∀ s, setup = some s → s.decides = false) :
    terminalFromSetupOrOutcome current outcome setup now stdout stderr =
      outcomeTerminal current outcome now stdout stderr := by
  cases setup with
  | none => rfl
  | some s =>
    have hs := h s rfl
    simp only [SetupStageResult.decides, Bool.or_eq_false_iff, beq_eq_false_iff_ne] at hs
    obtain ⟨⟨ht, hc⟩, hf⟩ := hs
    simp only [terminalFromSetupOrOutcome, if_neg ht, if_neg hc, if_neg hf]

/-- The end of a job whose child never ran, or of which that is not known. -/
def lostTerminal (current : JobStatus) (path : TerminalPath) (now stdout stderr : Nat)
    (code : String) : Except WorkerError Terminal := do
  pure ⟨← current.toInfrastructureTerminal .lost now stdout stderr code, .lost, none, path⟩

/-- The ends a supervisor gives its job. -/
inductive Ends (current : JobStatus) (terminal : Terminal) : Prop
  | outcome {outcome : ChildOutcome} {setup : Option SetupStageResult} {now stdout stderr : Nat}
      (h : terminalFromSetupOrOutcome current outcome setup now stdout stderr = .ok terminal)
  | lost {path : TerminalPath} {now stdout stderr : Nat} {code : String}
      (h : lostTerminal current path now stdout stderr code = .ok terminal)

theorem infrastructure_recovery {state now stdout stderr code kind path}
    (hk : state = .timedOut ∧ kind = .timedOut ∨ state = .cancelled ∧ kind = .cancelled ∨
      state = .lost ∧ kind = .lost)
    (h : (do pure ⟨← current.toInfrastructureTerminal state now stdout stderr code, kind, none,
      path⟩ : Except WorkerError Terminal) = .ok terminal) :
    current.Steps terminal.status ∧ ∃ path, terminalTurnRecovery terminal.status =
      .ok (terminal.kind, path, terminal.exitCode) := by
  simp only [bind_eq_ok, pure_eq_ok] at h
  obtain ⟨t, ht, rfl⟩ := h
  obtain ⟨hs, rfl⟩ := JobStatus.advanceTo_eq_ok.mp (of_then ht).2
  refine ⟨hs, ?_⟩
  rcases hk with ⟨rfl, rfl⟩ | ⟨rfl, rfl⟩ | ⟨rfl, rfl⟩ <;> exact ⟨_, rfl⟩

theorem outcomeTerminal_recovery {outcome now stdout stderr}
    (h : outcomeTerminal current outcome now stdout stderr = .ok terminal) :
    current.Steps terminal.status ∧ ∃ path, terminalTurnRecovery terminal.status =
      .ok (terminal.kind, path, terminal.exitCode) := by
  cases outcome with
  | exited code =>
    by_cases hz : code = 0 <;>
    · simp only [outcomeTerminal, hz, if_true, if_false, bind_eq_ok, pure_eq_ok] at h
      obtain ⟨t, ht, rfl⟩ := h
      obtain ⟨hs, rfl⟩ := JobStatus.advanceTo_eq_ok.mp ht
      exact ⟨hs, _, rfl⟩
  | signalled =>
    simp only [outcomeTerminal, bind_eq_ok, pure_eq_ok] at h
    obtain ⟨t, ht, rfl⟩ := h
    obtain ⟨hs, rfl⟩ := JobStatus.advanceTo_eq_ok.mp ht
    exact ⟨hs, _, rfl⟩
  | timedOut => exact infrastructure_recovery (.inl ⟨rfl, rfl⟩) h

/-- Recovery reads from the status what the supervisor would have published. -/
theorem Ends.recovery (h : Ends current terminal) : ∃ path, terminalTurnRecovery terminal.status =
      .ok (terminal.kind, path, terminal.exitCode) := by
  cases h with
  | lost h => exact (infrastructure_recovery (.inr (.inr ⟨rfl, rfl⟩)) h).2
  | @outcome outcome setup now stdout stderr h =>
    cases setup with
    | none => exact (outcomeTerminal_recovery h).2
    | some setup =>
      simp only [terminalFromSetupOrOutcome] at h
      split at h
      · exact (infrastructure_recovery (.inl ⟨rfl, rfl⟩) h).2
      · split at h
        · exact (infrastructure_recovery (.inr (.inl ⟨rfl, rfl⟩)) h).2
        · split at h
          · exact (infrastructure_recovery (.inr (.inr ⟨rfl, rfl⟩)) h).2
          · exact (outcomeTerminal_recovery h).2

end MacWorker.Job
