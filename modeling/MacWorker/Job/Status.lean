import MacWorker.Base

/-! # The status of a job

A job directory holds one mutable record, the status. Every writer passes the status it
read and the next one to `transition`, which decides whether the step is allowed: time
does not go back, a recorded process identity stays, and a terminal status keeps its
result. -/
namespace MacWorker.Job
open Fallible

inductive JobState where
  | uploading
  | verified
  | accepted
  | running
  | succeeded
  | failed
  | cancelled
  | timedOut
  | lost
  deriving DecidableEq

namespace JobState

def canTransitionTo : JobState → JobState → Bool
  | .uploading, .verified | .uploading, .lost => true
  | .verified, .accepted | .verified, .lost => true
  | .accepted, .running | .accepted, .failed | .accepted, .cancelled | .accepted, .lost => true
  | .running, .succeeded | .running, .failed | .running, .cancelled | .running, .timedOut
  | .running, .lost => true
  | _, _ => false

def isTerminal : JobState → Bool
  | .succeeded | .failed | .cancelled | .timedOut | .lost => true
  | .uploading | .verified | .accepted | .running => false

theorem not_terminal_of_canTransitionTo {s t : JobState} (h : s.canTransitionTo t = true) :
    s.isTerminal = false := by
  cases s <;> first | rfl | (cases t <;> simp [canTransitionTo] at h)

end JobState

/-- A text of at most so many bytes, none of them NUL. -/
def NonNul (value : String) (maxBytes : Nat) : Prop :=
  bytes value ≠ [] ∧ (bytes value).length ≤ maxBytes ∧ 0 ∉ bytes value

instance (value : String) (maxBytes : Nat) : Decidable (NonNul value maxBytes) :=
  inferInstanceAs (Decidable (_ ∧ _))

def validateNonNul (value : String) (maxBytes : Nat) (label : String) : Except WorkerError Unit :=
  ensure (NonNul value maxBytes) (.protocol (label ++ " is empty, too long, or contains NUL"))

/-- A process id is recorded together with its start time or not at all. -/
structure JobStatus where
  state : JobState
  updatedAtMillis : Nat
  (supervisor child : Option ProcessIdentity)
  exitCode : Option UInt8
  terminatingSignal : Option UInt32
  (finalStdoutBytes finalStderrBytes : Option Nat)
  (errorCode cleanupErrorCode : Option String)
  deriving DecidableEq

namespace JobStatus

variable {identity : ProcessIdentity} (s : JobStatus) (updatedAtMillis : Nat)

def accepted : JobStatus :=
  ⟨.accepted, updatedAtMillis, none, none, none, none, none, none, none, none⟩

def validateIdentity (identity : Option ProcessIdentity) (label : String) :
    Except WorkerError Unit :=
  checkSome identity fun identity =>
    ensure identity.Valid (.protocol (label ++ " process identity is incomplete"))

/-- The exit code and the signal a state may carry. -/
def outcomeFits : JobState → Option UInt8 → Option UInt32 → Bool
  | .succeeded, code, signal => code == some 0 && signal.isNone
  | .failed, some code, none => code != 0
  | .failed, none, some signal => signal != 0
  | .failed, _, _ => false
  | _, code, signal => code.isNone && signal.isNone

def outcomeError : JobState → WorkerError
  | .succeeded => .protocol "succeeded status requires exit code zero"
  | .failed => .protocol "failed status requires exactly one nonzero command outcome"
  | _ => .protocol "only command outcomes may include an exit code or signal"

def validate : Except WorkerError Unit := do
  validateIdentity s.supervisor "supervisor"
  validateIdentity s.child "child"
  ensure (s.child.isSome → s.supervisor.isSome)
    (.protocol "child identity requires a supervisor identity")
  ensure (s.state = .running → s.supervisor.isSome ∧ s.child.isSome)
    (.protocol "running status requires supervisor and child identities")
  ensure (s.finalStdoutBytes.isSome = s.finalStderrBytes.isSome)
    (.protocol "final log lengths must be present together")
  ensure (s.state.isTerminal = s.finalStdoutBytes.isSome)
    (.protocol "terminal status must bind both final log lengths")
  ensure (outcomeFits s.state s.exitCode s.terminatingSignal = true) (outcomeError s.state)
  checkSome s.errorCode fun code => validateNonNul code 128 "status error code"
  checkSome s.cleanupErrorCode fun code => do
    ensure (s.state.isTerminal = true) (.protocol "cleanup error requires a terminal status")
    validateNonNul code 128 "cleanup error code"

structure Valid (s : JobStatus) : Prop where
  supervisor : ∀ identity, s.supervisor = some identity → identity.Valid
  child : ∀ identity, s.child = some identity → identity.Valid
  supervised : s.child.isSome → s.supervisor.isSome
  running : s.state = .running → s.supervisor.isSome ∧ s.child.isSome
  lengths : s.finalStdoutBytes.isSome = s.finalStderrBytes.isSome
  terminal : s.state.isTerminal = s.finalStdoutBytes.isSome
  outcome : outcomeFits s.state s.exitCode s.terminatingSignal = true
  errorCode : ∀ code, s.errorCode = some code → NonNul code 128
  cleanup : ∀ code, s.cleanupErrorCode = some code → s.state.isTerminal = true ∧ NonNul code 128

@[simp] theorem validate_eq_ok {s : JobStatus} {u : Unit} : s.validate = .ok u ↔ s.Valid := by
  simp only [validate, validateIdentity, validateNonNul, then_eq_ok, checkSome_eq_ok, ensure_eq_ok]
  constructor
  · rintro ⟨hs, hc, h1, h2, h3, h4, h5, h6, h7⟩
    exact ⟨hs, hc, h1, h2, h3, h4, h5, h6, h7⟩
  · intro h
    exact ⟨h.supervisor, h.child, h.supervised, h.running, h.lengths, h.terminal, h.outcome,
      h.errorCode, h.cleanup⟩

theorem valid_accepted (t : Nat) : (accepted t).Valid where
  supervisor := nofun
  child := nofun
  supervised := nofun
  running := nofun
  lengths := rfl
  terminal := rfl
  outcome := rfl
  errorCode := nofun
  cleanup := nofun

/-! ## Transitions -/

def requireStickyIdentity (previous next : Option ProcessIdentity) (label : String) :
    Except WorkerError Unit :=
  checkSome previous fun identity =>
    ensure (next = some identity) (.protocol (label ++ " process identity is not sticky"))

/-- Exactly one of the two identities is added and no result changes. -/
def EnrichesAccepted (s next : JobStatus) : Prop :=
  xor (s.supervisor.isNone && next.supervisor.isSome) (s.child.isNone && next.child.isSome) = true ∧
    s.exitCode = next.exitCode ∧ s.terminatingSignal = next.terminatingSignal ∧
    s.errorCode = next.errorCode ∧ s.cleanupErrorCode = next.cleanupErrorCode

instance (s next : JobStatus) : Decidable (EnrichesAccepted s next) :=
  inferInstanceAs (Decidable (_ ∧ _))

def SameTerminalResult (s next : JobStatus) : Prop :=
  s.exitCode = next.exitCode ∧ s.terminatingSignal = next.terminatingSignal ∧
    s.finalStdoutBytes = next.finalStdoutBytes ∧ s.finalStderrBytes = next.finalStderrBytes ∧
    s.errorCode = next.errorCode

instance (s next : JobStatus) : Decidable (SameTerminalResult s next) :=
  inferInstanceAs (Decidable (_ ∧ _))

def CleanupErrorTransitionIsAllowed (s next : JobStatus) : Prop :=
  s.cleanupErrorCode.isSome ≠ next.cleanupErrorCode.isSome ∧ SameTerminalResult s next

instance (s next : JobStatus) : Decidable (CleanupErrorTransitionIsAllowed s next) :=
  inferInstanceAs (Decidable (_ ∧ _))

def transition (s next : JobStatus) : Except WorkerError Unit := do
  s.validate
  next.validate
  ensure (s.updatedAtMillis ≤ next.updatedAtMillis)
    (.protocol "job status timestamp moved backwards")
  requireStickyIdentity s.supervisor next.supervisor "supervisor"
  requireStickyIdentity s.child next.child "child"
  if s.state = .accepted ∧ next.state = .accepted then
    ensure (EnrichesAccepted s next)
      (.protocol "accepted identity enrichment must add exactly one process identity")
  else do
    ensure (s.supervisor = next.supervisor ∧ s.child = next.child)
      (.protocol "process identities may change only during accepted enrichment")
    if s.state.isTerminal = true ∧ s.state = next.state then
      ensure (CleanupErrorTransitionIsAllowed s next)
        (.protocol "terminal status permits only one cleanup-error enrichment")
    else
      ensure (s.state.canTransitionTo next.state = true)
        (.protocol "job state transition is not allowed")

/-- What a status may become, time and identities apart. -/
inductive Moves (s next : JobStatus) : Prop
  | enrich (hs : s.state = .accepted) (hn : next.state = .accepted) (h : EnrichesAccepted s next)
  | cleanup (hs : s.state.isTerminal = true) (hn : s.state = next.state)
      (hids : s.supervisor = next.supervisor ∧ s.child = next.child)
      (h : CleanupErrorTransitionIsAllowed s next)
  | advance (hids : s.supervisor = next.supervisor ∧ s.child = next.child)
      (h : s.state.canTransitionTo next.state = true)

structure Steps (s next : JobStatus) : Prop where
  valid : s.Valid
  validNext : next.Valid
  later : s.updatedAtMillis ≤ next.updatedAtMillis
  supervisor : ∀ identity, s.supervisor = some identity → next.supervisor = some identity
  child : ∀ identity, s.child = some identity → next.child = some identity
  moves : Moves s next

theorem transition_eq_ok {s next : JobStatus} {u : Unit} :
    s.transition next = .ok u ↔ Steps s next := by
  simp only [transition, requireStickyIdentity, then_eq_ok, validate_eq_ok, ensure_eq_ok,
    checkSome_eq_ok]
  constructor
  · rintro ⟨hv, hn, ht, hs, hc, h⟩
    refine ⟨hv, hn, ht, hs, hc, ?_⟩
    split at h
    · exact .enrich (by tauto) (by tauto) (ensure_eq_ok.1 h)
    · simp only [then_eq_ok, ensure_eq_ok] at h
      obtain ⟨hid, h⟩ := h
      split at h
      · exact .cleanup (by tauto) (by tauto) hid (ensure_eq_ok.1 h)
      · exact .advance hid (ensure_eq_ok.1 h)
  · intro h
    refine ⟨h.valid, h.validNext, h.later, h.supervisor, h.child, ?_⟩
    cases h.moves with
    | enrich hs hn hm => rw [if_pos ⟨hs, hn⟩, ensure_eq_ok]; exact hm
    | cleanup hs hn hid hm =>
      have ha : ¬(s.state = .accepted ∧ next.state = .accepted) := by
        intro ha; rw [ha.1] at hs; cases hs
      simp only [if_neg ha, then_eq_ok, ensure_eq_ok, if_pos (And.intro hs hn)]
      exact ⟨hid, hm⟩
    | advance hid hm =>
      have hte := JobState.not_terminal_of_canTransitionTo hm
      have ha : ¬(s.state = .accepted ∧ next.state = .accepted) := by
        intro ha; rw [ha.1, ha.2] at hm; cases hm
      have hnt : ¬(s.state.isTerminal = true ∧ s.state = next.state) := by simp [hte]
      simp only [if_neg ha, then_eq_ok, ensure_eq_ok, if_neg hnt]
      exact ⟨hid, hm⟩

/-! ## The steps writers take -/

/-- Validate the next status, then the step to it. -/
def advanceTo (s next : JobStatus) : Except WorkerError JobStatus := do
  next.validate
  s.transition next
  pure next

theorem advanceTo_eq_ok {s next t : JobStatus} :
    s.advanceTo next = .ok t ↔ Steps s next ∧ next = t := by
  simp only [advanceTo, then_eq_ok, validate_eq_ok, transition_eq_ok, pure_eq_ok]
  exact ⟨fun h => h.2, fun h => ⟨h.1.validNext, h⟩⟩

theorem advanceTo_iff_later {s next t} (h : s.updatedAtMillis ≤ next.updatedAtMillis →
    Steps s next) :
    s.advanceTo next = .ok t ↔ s.updatedAtMillis ≤ next.updatedAtMillis ∧ next = t :=
  advanceTo_eq_ok.trans (and_congr_left' ⟨Steps.later, h⟩)

def withSupervisor (identity : ProcessIdentity) (updatedAtMillis : Nat) :
    Except WorkerError JobStatus := do
  identity.validate
  ensure (s.state = .accepted ∧ s.supervisor = none)
    (.protocol "supervisor identity may enrich accepted status once")
  s.advanceTo { s with updatedAtMillis, supervisor := some identity }

def withChild (identity : ProcessIdentity) (updatedAtMillis : Nat) :
    Except WorkerError JobStatus := do
  identity.validate
  ensure (s.state = .accepted ∧ s.supervisor.isSome ∧ s.child = none)
    (.protocol "child identity may enrich supervised accepted status once")
  s.advanceTo { s with updatedAtMillis, child := some identity }

def toRunning : Except WorkerError JobStatus :=
  s.advanceTo ⟨.running, updatedAtMillis, s.supervisor, s.child, none, none, none, none, none, none⟩

def transitionToTerminal (state : JobState) (updatedAtMillis : Nat) (exitCode : Option UInt8)
    (signal : Option UInt32) (stdout stderr : Nat) (errorCode : Option String) :
    Except WorkerError JobStatus :=
  s.advanceTo ⟨state, updatedAtMillis, s.supervisor, s.child, exitCode, signal, some stdout,
    some stderr, errorCode, none⟩

def toSucceeded (updatedAtMillis stdout stderr : Nat) : Except WorkerError JobStatus :=
  s.transitionToTerminal .succeeded updatedAtMillis (some 0) none stdout stderr none

def toFailedExit (exitCode : UInt8) (stdout stderr : Nat) : Except WorkerError JobStatus :=
  s.transitionToTerminal .failed updatedAtMillis (some exitCode) none stdout stderr none

def toFailedSignal (signal : UInt32) (stdout stderr : Nat) : Except WorkerError JobStatus :=
  s.transitionToTerminal .failed updatedAtMillis none (some signal) stdout stderr none

def toInfrastructureTerminal (state : JobState) (updatedAtMillis stdout stderr : Nat)
    (errorCode : String) : Except WorkerError JobStatus := do
  ensure (state = .cancelled ∨ state = .timedOut ∨ state = .lost)
    (.protocol "infrastructure terminal constructor requires a non-command terminal state")
  s.transitionToTerminal state updatedAtMillis none none stdout stderr (some errorCode)

/-! Whatever a writer builds is a step. -/

theorem steps_of_withSupervisor {s t now} (h : s.withSupervisor identity now = .ok t) :
    Steps s t := by
  simp only [withSupervisor, then_eq_ok, advanceTo_eq_ok] at h
  obtain ⟨-, -, h, rfl⟩ := h
  exact h

theorem steps_of_withChild {s t now} (h : s.withChild identity now = .ok t) : Steps s t := by
  simp only [withChild, then_eq_ok, advanceTo_eq_ok] at h
  obtain ⟨-, -, h, rfl⟩ := h
  exact h

theorem steps_of_toRunning {s t now} (h : s.toRunning now = .ok t) : Steps s t := by
  obtain ⟨hs, rfl⟩ := advanceTo_eq_ok.1 h
  exact hs

/-! Each step from a valid status is refused for its time alone. -/

theorem withSupervisor_eq_ok {s t : JobStatus} {now : Nat} (hs : s.Valid)
    (ha : s.state = .accepted) (hn : s.supervisor = none) (hid : identity.Valid) :
    s.withSupervisor identity now = .ok t ↔
      s.updatedAtMillis ≤ now ∧ { s with updatedAtMillis := now, supervisor := some identity } =
        t := by
  have hc : s.child = none := by
    have := hs.supervised
    rw [hn] at this
    simpa using this
  simp only [withSupervisor, then_eq_ok, ProcessIdentity.validate_eq_ok, ensure_eq_ok]
  rw [and_iff_right hid, and_iff_right ⟨ha, hn⟩]
  refine advanceTo_iff_later fun hle => ⟨hs, ?_, hle, by simp [hn], fun _ h => h, ?_⟩
  · exact { hs with
      supervisor := fun i hi => by cases hi; exact hid
      supervised := fun _ => rfl
      running := fun hr => by rw [ha] at hr; cases hr }
  · refine .enrich ha ha ⟨?_, rfl, rfl, rfl, rfl⟩
    simp [hn, hc]

theorem withChild_eq_ok {s t : JobStatus} {now : Nat} (hs : s.Valid) (ha : s.state = .accepted)
    (hso : s.supervisor.isSome) (hn : s.child = none) (hid : identity.Valid) :
    s.withChild identity now = .ok t ↔
      s.updatedAtMillis ≤ now ∧ { s with updatedAtMillis := now, child := some identity } = t := by
  simp only [withChild, then_eq_ok, ProcessIdentity.validate_eq_ok, ensure_eq_ok]
  rw [and_iff_right hid, and_iff_right ⟨ha, hso, hn⟩]
  refine advanceTo_iff_later fun hle => ⟨hs, ?_, hle, fun _ h => h, by simp [hn], ?_⟩
  · exact { hs with
      child := fun i hi => by cases hi; exact hid
      supervised := fun _ => hso
      running := fun hr => by rw [ha] at hr; cases hr }
  · refine .enrich ha ha ⟨?_, rfl, rfl, rfl, rfl⟩
    simp [hn, hso]

theorem toRunning_eq_ok {s t : JobStatus} {now : Nat} (hs : s.Valid) (ha : s.state = .accepted)
    (hso : s.supervisor.isSome) (hc : s.child.isSome) :
    s.toRunning now = .ok t ↔ s.updatedAtMillis ≤ now ∧
      ⟨.running, now, s.supervisor, s.child, none, none, none, none, none, none⟩ = t := by
  refine advanceTo_iff_later fun hle =>
    ⟨hs, ?_, hle, fun _ h => h, fun _ h => h, .advance ⟨rfl, rfl⟩ (by rw [ha]; rfl)⟩
  exact ⟨hs.supervisor, hs.child, hs.supervised, fun _ => ⟨hso, hc⟩, rfl, rfl, rfl, nofun, nofun⟩

theorem transitionToTerminal_eq_ok {s t : JobStatus} {state : JobState} {now stdout stderr : Nat}
    {exitCode : Option UInt8} {signal : Option UInt32} {errorCode : Option String} (hs : s.Valid)
    (hto : s.state.canTransitionTo state = true) (ht : state.isTerminal = true)
    (hf : outcomeFits state exitCode signal = true)
    (hc : ∀ code, errorCode = some code → NonNul code 128) :
    s.transitionToTerminal state now exitCode signal stdout stderr errorCode = .ok t ↔
      s.updatedAtMillis ≤ now ∧ ⟨state, now, s.supervisor, s.child, exitCode, signal, some stdout,
        some stderr, errorCode, none⟩ = t := by
  refine advanceTo_iff_later fun hle =>
    ⟨hs, ?_, hle, fun _ h => h, fun _ h => h, .advance ⟨rfl, rfl⟩ hto⟩
  refine ⟨hs.supervisor, hs.child, hs.supervised, ?_, rfl, ht, hf, hc, nofun⟩
  intro hr
  rw [show state = .running from hr] at ht
  cases ht

/-! ## Whole histories -/

/-- How many steps a status can take before its job has ended. -/
def stepsLeft (s : JobStatus) : Nat :=
  match s.state with
  | .uploading => 6
  | .verified => 5
  | .accepted => 2 + s.supervisor.isNone.toNat + s.child.isNone.toNat
  | .running => 1
  | _ => 0

/-- What is left of a status `n` steps later. -/
structure Since (n : Nat) (s t : JobStatus) : Prop where
  later : s.updatedAtMillis ≤ t.updatedAtMillis
  supervisor : ∀ p, s.supervisor = some p → t.supervisor = some p
  child : ∀ p, s.child = some p → t.child = some p
  ended : s.stepsLeft ≤ n → t.state.isTerminal = true
  settled : s.state.isTerminal = true → t = { s with
    updatedAtMillis := t.updatedAtMillis, cleanupErrorCode := t.cleanupErrorCode }

theorem Steps.stepsLeft_lt {s t : JobStatus} (h : Steps s t) :
    s.state.isTerminal = true ∨ t.stepsLeft < s.stepsLeft := by
  unfold stepsLeft
  cases h.moves with
  | enrich ha hb he =>
    have hx := he.1
    rw [ha, hb]
    cases hsu : s.supervisor <;> cases hch : s.child <;> cases htu : t.supervisor <;>
      cases hth : t.child <;> simp_all [h.supervisor, h.child]
  | cleanup ht => exact .inl ht
  | advance hid hc =>
    rw [← hid.1, ← hid.2]
    generalize s.state = a, t.state = b at hc
    cases s.supervisor <;> cases s.child <;> cases a <;> cases b <;>
      first | (cases hc; done) | simp

theorem Steps.settled {s t : JobStatus} (h : Steps s t) (hs : s.state.isTerminal = true) :
    t = { s with
      updatedAtMillis := t.updatedAtMillis, cleanupErrorCode := t.cleanupErrorCode } := by
  cases h.moves with
  | enrich ha => rw [ha] at hs; cases hs
  | cleanup _ hst hid hc =>
    obtain ⟨-, he, hsi, ho, hr, hco⟩ := hc
    rw [hst, hid.1, hid.2, he, hsi, ho, hr, hco]
  | advance _ hc => rw [JobState.not_terminal_of_canTransitionTo hc] at hs; cases hs

/-- **A job ends once.** Along statuses that were each accepted after the one before, time does
not go back and a recorded process stays. After as many steps as its status had left, a job has
ended, and from then on only its time and its cleanup error change. -/
theorem job_ends_once {history : Nat → JobStatus} {n : Nat}
    (h : ∀ i < n, (history i).transition (history (i + 1)) = .ok ()) {i k : Nat} (hk : i + k ≤ n) :
    Since k (history i) (history (i + k)) := by
  induction k generalizing i with
  | zero =>
    refine ⟨Nat.le_refl _, fun _ h => h, fun _ h => h, fun hl => ?_, fun _ => rfl⟩
    revert hl
    unfold stepsLeft
    cases (history i).state <;> simp [JobState.isTerminal]
  | succ k ih =>
    have hs : Steps (history i) (history (i + 1)) := transition_eq_ok.mp (h i (by omega))
    have hr := @ih (i + 1) (by omega)
    rw [Nat.add_right_comm] at hr
    have hen (ht : (history i).state.isTerminal = true) :
        (history (i + 1)).state.isTerminal = true := by rw [hs.settled ht]; exact ht
    refine ⟨Nat.le_trans hs.later hr.later, fun p hp => hr.supervisor p (hs.supervisor p hp),
      fun p hp => hr.child p (hs.child p hp), fun hl => ?_, fun ht => ?_⟩
    · rcases hs.stepsLeft_lt with ht | hlt
      · rw [← Nat.add_assoc, hr.settled (hen ht)]
        exact hen ht
      · exact hr.ended (by omega)
    · have he := hr.settled (hen ht)
      rw [hs.settled ht] at he
      exact he

/-- The statuses of a job that succeeds. -/
def succeeding : Nat → JobStatus
  | 0 => accepted 1
  | 1 => { accepted 1 with supervisor := some ⟨1, 1⟩ }
  | 2 => { accepted 2 with supervisor := some ⟨1, 1⟩, child := some ⟨2, 2⟩ }
  | 3 => ⟨.running, 3, some ⟨1, 1⟩, some ⟨2, 2⟩, none, none, none, none, none, none⟩
  | _ => ⟨.succeeded, 4, some ⟨1, 1⟩, some ⟨2, 2⟩, some 0, none, some 0, some 0, none, none⟩

theorem job_ends_once_supervised : Since 4 (accepted 1) (succeeding 4) :=
  @job_ends_once succeeding 4 (by decide) 0 4 (Nat.le_refl 4)

end JobStatus

end MacWorker.Job
