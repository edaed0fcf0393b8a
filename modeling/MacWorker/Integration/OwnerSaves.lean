import MacWorker.Integration.Owner
import Mathlib.Data.Fintype.Card

/-! # What the owner can save

The owner's functions change a copy of the record and then save it. Each save revalidates
the record, so a stop settles only if every record on its way is valid. What a settlement
leaves alone is the `Frame` of the record; what it does change has to stay `Sound`. On a
record that is `Ready` the owner's functions do not fail. -/
namespace MacWorker.Integration
open Fallible Durable List
open Dag (IntegrationStatus IntegrationCode)

/-! ## Questions and files -/

section
variable {η α : Type} {w : OwnerWorld η} {C : OwnerWorld η → Prop}
  {E : IntegrationError → OwnerWorld η → Prop} {R : α → OwnerWorld η → Prop}

theorem spec_ask {question} :
    Spec (ask question) w C (Ends E R) ↔ C w.tick ∧ R (question w.clock) w.tick := by
  unfold ask
  rw [ends_bind, ends_get, ends_bind, ends_write, ends_pure]

theorem spec_askChecked {question} : Spec (askChecked question) w C (Ends E R) ↔ C w.tick ∧
      (∀ a, question w.clock = .ok a → R a w.tick) ∧
      (∀ e, question w.clock = .error e → E e w.tick) := by
  unfold askChecked
  rw [ends_bind, spec_ask, ends_lift]

theorem spec_consult {read} : Spec (consult read) w C (Ends E R) ↔
      (∀ a, read w = .ok a → R a w) ∧ (∀ e, read w = .error e → E e w) := by
  unfold consult
  rw [ends_bind, ends_get, ends_lift]

end

/-! ## The parts of a record -/

namespace IntegrationRecord

/-- What the settlement of a cycle leaves alone. -/
structure Frame (r r' : IntegrationRecord) : Prop where
  schema : r'.schemaVersion = r.schemaVersion
  taskId : r'.taskId = r.taskId
  policy : r'.policy = r.policy
  targetKey : r'.targetKey = r.targetKey
  sourceRevision : r'.sourceRevision = r.sourceRevision
  sourceSummary : r'.sourceSummary = r.sourceSummary
  candidates : r'.candidates = r.candidates
  auxiliaries : r'.auxiliaries = r.auxiliaries
  archivedReceipts : r'.archivedReceipts = r.archivedReceipts
  snapshotSchema : r'.snapshot.schemaVersion = r.snapshot.schemaVersion
  integrationId : r'.snapshot.integrationId = r.snapshot.integrationId
  epoch : r'.snapshot.epoch = r.snapshot.epoch
  target : r'.snapshot.target = r.snapshot.target
  sourceTurnId : r'.snapshot.sourceTurnId = r.snapshot.sourceTurnId
  sourceHead : r'.snapshot.sourceHead = r.snapshot.sourceHead
  attempts : r'.snapshot.attempts = r.snapshot.attempts
  resolveTurns : r'.snapshot.resolveTurns = r.snapshot.resolveTurns
  verifyTurns : r'.snapshot.verifyTurns = r.snapshot.verifyTurns

theorem Frame.refl (r : IntegrationRecord) : r.Frame r :=
  ⟨rfl, rfl, rfl, rfl, rfl, rfl, rfl, rfl, rfl, rfl, rfl, rfl, rfl, rfl, rfl, rfl, rfl, rfl⟩

theorem Frame.trans {r r' r'' : IntegrationRecord} (h : r.Frame r') (h' : r'.Frame r'') :
    r.Frame r'' := by
  cases h
  cases h'
  constructor <;> simp_all only

/-- What a settlement has to keep valid in the rest of the record. -/
structure Sound (r : IntegrationRecord) : Prop where
  revision : r.snapshot.revision ≠ 0
  pauseReason : r.snapshot.pauseReason.isSome = (r.snapshot.state == .parked)
  resumeState : r.snapshot.resumeState.isSome = IntegrationSnapshot.resumable r.snapshot.state
  restores : r.snapshot.resumeState.all IntegrationSnapshot.restorable = true
  blocked : r.snapshot.state = .blocked → r.snapshot.blockedCode.isSome
  integrated : r.snapshot.state = .integrated →
    r.snapshot.disposition.isSome ∧ r.snapshot.resultOid.isSome
  alreadyIntegrated : r.snapshot.disposition = some .alreadyIntegrated →
    r.snapshot.mergeOid.isNone ∧ r.snapshot.observedTargetOid.isSome
  merged : r.snapshot.disposition = some .merged → r.snapshot.mergeOid.isSome
  admission : r.remainingAdmissionMillis.all (· ≤ auxiliaryAdmissionMillis) = true
  backoff : r.remainingBackoffMillis.all (· ≤ 30000) = true
  retries : r.phaseRetries.all (·.retries ≤ 3) = true
  phases : (r.phaseRetries.map (·.phase)).Nodup
  parked : r.pause.isSome = (r.snapshot.state == .parked)
  pausedFor : ∀ p, r.pause = some p → r.snapshot.pauseReason = some p.reason
  pauseDeadline : r.pause.isSome → r.admissionDeadlineMillis.isNone
  actor : ∀ a, r.actor = some a → a.Valid
  receipt : ∀ receipt, r.receipt = some receipt → receipt.validate = .ok ()

instance : Fintype IntegrationPhase where
  elems := {.drive, .fetch, .prepare, .acceptTurn, .build, .push, .repair, .auxiliaryAdmission}
  complete phase := by cases phase <;> decide

theorem Sound.retries_length {r : IntegrationRecord} (h : r.Sound) : r.phaseRetries.length ≤ 8 := by
  have := h.phases.length_le_card
  rw [length_map] at this
  exact this

theorem Validated.sound {codec : Codec} {r : IntegrationRecord} (h : r.Validated codec)
    (hp : (r.phaseRetries.map (·.phase)).Nodup) : r.Sound where
  revision := h.snapshot.revision
  pauseReason := h.snapshot.pauseReason
  resumeState := h.snapshot.resumeState
  restores := h.snapshot.restores
  blocked := h.snapshot.blocked
  integrated := h.snapshot.integrated
  alreadyIntegrated := h.snapshot.alreadyIntegrated
  merged := h.snapshot.merged
  admission := h.consistent.admission
  backoff := h.consistent.backoff
  retries := h.consistent.retries.2
  phases := hp
  parked := h.consistent.parked
  pausedFor := h.consistent.pauseReason
  pauseDeadline := h.consistent.pauseDeadline
  actor := h.actor
  receipt := h.receipt

theorem Frame.validated {codec : Codec} {r r' : IntegrationRecord} (hf : r.Frame r')
    (hv : r.Validated codec) (hs : r'.Sound)
    (hsi : codec.recordBytes r' ≤ maxPrivateRecordBytes) : r'.Validated codec where
  policy := by rw [hf.policy]; exact hv.policy
  snapshot := {
    schema := by rw [hf.snapshotSchema]; exact hv.snapshot.schema
    revision := hs.revision
    target := by rw [hf.target]; exact hv.snapshot.target
    attempts := by rw [hf.attempts]; exact hv.snapshot.attempts
    resolveTurns := by rw [hf.resolveTurns]; exact hv.snapshot.resolveTurns
    verifyTurns := by rw [hf.verifyTurns]; exact hv.snapshot.verifyTurns
    pauseReason := hs.pauseReason
    resumeState := hs.resumeState
    restores := hs.restores
    blocked := hs.blocked
    integrated := hs.integrated
    alreadyIntegrated := hs.alreadyIntegrated
    merged := hs.merged }
  policyKey := by rw [hf.policy, hf.targetKey]; exact hv.policyKey
  key := by rw [hf.targetKey]; exact hv.key
  id := by
    rw [hf.integrationId, hf.taskId, hf.sourceTurnId, hf.sourceHead, hf.targetKey]
    exact hv.id
  consistent := {
    schema := by rw [hf.schema]; exact hv.consistent.schema
    sourceRevision := by rw [hf.sourceRevision]; exact hv.consistent.sourceRevision
    sourceSummary := by rw [hf.sourceSummary]; exact hv.consistent.sourceSummary
    candidates := by rw [hf.candidates]; exact hv.consistent.candidates
    auxiliaries := by rw [hf.auxiliaries]; exact hv.consistent.auxiliaries
    archivedReceipts := by rw [hf.archivedReceipts]; exact hv.consistent.archivedReceipts
    admission := hs.admission
    backoff := hs.backoff
    retries := ⟨hs.retries_length, hs.retries⟩
    parked := hs.parked
    pauseReason := hs.pausedFor
    pauseDeadline := hs.pauseDeadline }
  actor := hs.actor
  candidates := by
    rw [hf.candidates, hf.integrationId, hf.epoch, hf.sourceHead, hf.taskId]
    exact hv.candidates
  attempts := by rw [hf.candidates]; exact hv.attempts
  auxiliaries := by
    rw [hf.auxiliaries, hf.integrationId, hf.epoch]
    exact hv.auxiliaries
  turns := by rw [hf.auxiliaries]; exact hv.turns
  archived := by rw [hf.archivedReceipts]; exact hv.archived
  receipt := hs.receipt
  size := hsi

end IntegrationRecord

/-! ## A cycle that can be saved -/

section
variable {η : Type} {codec : Codec}

/-- What a settlement starts from: a valid record of the stored policy whose
preparations belong to it, with room for what the settlement adds. -/
structure Settling (codec : Codec) (w₀ : OwnerWorld η) (r₀ : IntegrationRecord) : Prop where
  valid : r₀.Validated codec
  task : r₀.taskId = w₀.task
  policy : w₀.policy = some r₀.policy
  references : w₀.references codec r₀ = .ok ()
  fits : ∀ r, r₀.Frame r → codec.recordBytes r ≤ maxPrivateRecordBytes

/-- The reservation of the target, if there is one, is that of the record's actor. -/
def Reserved (w : OwnerWorld η) (r : IntegrationRecord) : Prop :=
  ∀ actor old, r.actor = some actor → w.reservations.find? (·.key == r.targetKey) = some old →
    old = reservationOf r actor

/-- The record in hand is a sound successor of the stored one, with `room` more
revisions to spend. -/
structure Ready (w₀ : OwnerWorld η) (r₀ : IntegrationRecord) (room : Nat) (w : OwnerWorld η)
    (r : IntegrationRecord) : Prop where
  frame : r₀.Frame r
  sound : r.Sound
  task : w.task = w₀.task
  policy : w.policy = w₀.policy
  prepared : w.prepared = w₀.prepared
  stored : ∃ old, w.record = some old ∧ r₀.Frame old ∧ old.Sound ∧
    old.snapshot.revision = r.snapshot.revision
  reserved : Reserved w r
  room : r.snapshot.revision + room < 2 ^ 64

structure Held (w₀ : OwnerWorld η) (r₀ : IntegrationRecord) (room : Nat) (w : OwnerWorld η)
    (r : IntegrationRecord) : Prop extends Ready w₀ r₀ room w r where
  held : w.record = some r

variable {w₀ w : OwnerWorld η} {r₀ r r' : IntegrationRecord} {room : Nat}

theorem Settling.validated (h : Settling codec w₀ r₀) (hf : r₀.Frame r) (hs : r.Sound) :
    r.Validated codec := hf.validated h.valid hs (h.fits r hf)

theorem Ready.tick (h : Ready w₀ r₀ room w r) : Ready w₀ r₀ room w.tick r := { h with }

theorem Held.tick (h : Held w₀ r₀ room w r) : Held w₀ r₀ room w.tick r := { h with }

theorem Ready.less (h : Ready w₀ r₀ (room + n) w r) : Ready w₀ r₀ room w r :=
  { h with room := by have := h.room; omega }

theorem Held.less (h : Held w₀ r₀ (room + n) w r) : Held w₀ r₀ room w r :=
  { h.toReady.less with held := h.held }

/-- The owner may change what the frame leaves open, as long as it stays sound. -/
theorem Ready.change (h : Ready w₀ r₀ room w r) (hs : r'.Sound)
    (hac : r'.actor = r.actor ∨ r'.actor = none := by exact .inl rfl)
    (hf : r.Frame r' := by exact { IntegrationRecord.Frame.refl _ with })
    (hr : r'.snapshot.revision = r.snapshot.revision := by rfl) : Ready w₀ r₀ room w r' where
  frame := h.frame.trans hf
  sound := hs
  task := h.task
  policy := h.policy
  prepared := h.prepared
  stored := by rw [hr]; exact h.stored
  reserved := by
    intro actor old ha hol
    rw [hf.targetKey] at hol
    rw [reservationOf, hf.targetKey, hf.integrationId, hf.epoch]
    rcases hac with hsa | hn
    · exact h.reserved actor old (hsa ▸ ha) hol
    · cases hn.symm.trans ha
  room := by rw [hr]; exact h.room

/-! ### Preparations of the cycle -/

theorem validateFor_frame (hf : r.Frame r') (hv : r.Validated codec)
    (hv' : r'.Validated codec) (p : PreparedIntegrationTurn) :
    p.validateFor codec r' = p.validateFor codec r := by
  unfold PreparedIntegrationTurn.validateFor
  rw [(IntegrationRecord.validate_eq_ok codec).mpr hv,
    (IntegrationRecord.validate_eq_ok codec).mpr hv', hf.integrationId, hf.epoch,
    hf.taskId, hf.sourceHead, hf.candidates]

theorem reference_frame (hf : r.Frame r') (hv : r.Validated codec)
    (hv' : r'.Validated codec) (p : PreparedIntegrationTurn) :
    r'.reference codec p = r.reference codec p := by
  unfold IntegrationRecord.reference
  rw [hf.auxiliaries, validateFor_frame hf hv hv']

theorem preparation_same {w w' : OwnerWorld η} (ht : w'.task = w.task)
    (hp : w'.prepared = w.prepared) (turn : TurnId) :
    w'.preparation codec turn = w.preparation codec turn := by
  unfold OwnerWorld.preparation
  rw [ht, hp]

theorem references_frame (hf : r.Frame r') (hv : r.Validated codec)
    (hv' : r'.Validated codec) (w : OwnerWorld η) :
    w.references codec r' = w.references codec r := by
  unfold OwnerWorld.references
  rw [hf.auxiliaries]
  simp only [reference_frame hf hv hv']

theorem Ready.references (h : Ready w₀ r₀ room w r) (hs : Settling codec w₀ r₀) :
    w.references codec r = .ok () := by
  rw [references_frame h.frame hs.valid (hs.validated h.frame h.sound), ← hs.references]
  unfold OwnerWorld.references
  simp only [preparation_same h.task h.prepared]

theorem load_of_validated (hr : w.record = some r) (hv : r.Validated codec)
    (ht : r.taskId = w.task) : w.load codec = .ok (some r) := by
  unfold OwnerWorld.load
  rw [hr]
  refine then_eq_ok.mpr ⟨(IntegrationRecord.validate_eq_ok codec).mpr hv, ?_⟩
  exact then_eq_ok.mpr ⟨ensure_of ht, rfl⟩

section
variable (hs : Settling codec w₀ r₀)
include hs

theorem Ready.load (h : Ready w₀ r₀ room w r) :
    ∃ old, w.load codec = .ok (some old) ∧ r₀.Frame old ∧ old.Validated codec ∧
      old.snapshot.revision = r.snapshot.revision := by
  obtain ⟨old, hol, hf, hso, hr⟩ := h.stored
  have hv := hs.validated hf hso
  refine ⟨old, load_of_validated hol hv ?_, hf, hv, hr⟩
  rw [hf.taskId, h.task, hs.task]

theorem Held.load (h : Held w₀ r₀ room w r) : w.load codec = .ok (some r) := by
  refine load_of_validated h.held (hs.validated h.frame h.sound) ?_
  rw [h.frame.taskId, h.task, hs.task]

theorem Held.loaded (h : Held w₀ r₀ room w r) : w.loaded codec = .ok r := by
  unfold OwnerWorld.loaded
  rw [h.load hs]
  rfl

theorem Ready.loadPrepared (h : Ready w₀ r₀ room w r) (hh : w₀.record = some r₀) (turn : TurnId) :
    w.loadPrepared codec turn = w₀.loadPrepared codec turn := by
  obtain ⟨old, hl, hf, hv, -⟩ := h.load hs
  unfold OwnerWorld.loadPrepared
  rw [hl, load_of_validated hh hs.valid hs.task, preparation_same h.task h.prepared]
  cases w₀.preparation codec turn with
  | error e => rfl
  | ok p =>
    cases p with
    | none => rfl
    | some p => simp only [bind_ok, reference_frame hf hs.valid hv]

theorem Ready.coversTurns (h : Ready w₀ r₀ room w r)
    (hh : w₀.record = some r₀) (source : TurnId) (turns : List TurnSummary) :
    w.coversTurns codec source turns = w₀.coversTurns codec source turns := by
  induction turns with
  | nil => rfl
  | cons turn earlier ih =>
    unfold OwnerWorld.coversTurns
    rw [h.loadPrepared hs hh, ih]

theorem Ready.sourceIsCurrent (h : Ready w₀ r₀ room w r)
    (hh : w₀.record = some r₀) (facts : IntegrationTaskFacts) :
    w.sourceIsCurrentAsideFromStop codec r facts =
      w₀.sourceIsCurrentAsideFromStop codec r₀ facts := by
  have hv := hs.validated h.frame h.sound
  unfold OwnerWorld.sourceIsCurrentAsideFromStop OwnerWorld.ownerSourceIsCurrent
    OwnerWorld.coversLatestOrdinaryWork
  simp only [h.coversTurns hs hh, h.loadPrepared hs hh, h.frame.sourceTurnId,
    h.frame.integrationId, h.frame.epoch, h.frame.taskId, h.frame.sourceHead,
    validateFor_frame h.frame hs.valid hv]

end

/-! ## Saving -/

theorem nextRevision_of_lt {revision} (h : revision + 1 < 2 ^ 64) :
    nextRevision revision = .ok (revision + 1) := if_pos h

theorem stamped_sound (h : r.Sound) (revision now : Nat) : (stamped r (revision + 1) now).Sound :=
  { h with revision := Nat.succ_ne_zero revision }

theorem stamped_frame (r : IntegrationRecord) (revision now : Nat) :
    r.Frame (stamped r revision now) := { IntegrationRecord.Frame.refl r with }

theorem Ready.replaceable (h : Ready w₀ r₀ (room + 1) w r) (hs : Settling codec w₀ r₀)
    (now : Nat) : w.replaceable codec r.snapshot.revision
      (stamped r (r.snapshot.revision + 1) now) = .ok true := by
  have hf := h.frame.trans (stamped_frame r (r.snapshot.revision + 1) now)
  have hso := stamped_sound h.sound r.snapshot.revision now
  have hv := hs.validated hf hso
  obtain ⟨old, hl, -, -, hr⟩ := h.load hs
  unfold OwnerWorld.replaceable
  rw [(IntegrationRecord.validate_eq_ok codec).mpr hv, bind_ok,
    nextRevision_of_lt (by have := h.room; omega), bind_ok]
  refine then_eq_ok.mpr ⟨ensure_of ⟨?_, rfl⟩, ?_⟩
  · rw [hf.taskId, h.task, hs.task]
  rw [hl, bind_ok]
  refine (if_neg (not_not.mpr hr)).trans ?_
  rw [h.policy, hs.policy]
  refine then_eq_ok.mpr ⟨hs.valid.policy, then_eq_ok.mpr ⟨ensure_of hf.policy.symm, ?_⟩⟩
  refine then_eq_ok.mpr ⟨?_, rfl⟩
  rw [references_frame (stamped_frame r _ now) (hs.validated h.frame h.sound) hv]
  exact h.references hs

section
variable {env : OwnerEnv η} {E : IntegrationError → OwnerWorld η → Prop}
  {R : IntegrationRecord → OwnerWorld η → Prop}

theorem spec_persistRecord (hs : Settling codec w₀ r₀) (h : Ready w₀ r₀ (room + 1) w r)
    (hR : ∀ now t, Held w₀ r₀ room t (stamped r (r.snapshot.revision + 1) now) →
      R (stamped r (r.snapshot.revision + 1) now) t) :
    Spec (persistRecord codec env r) w (fun _ => True) (Ends E R) := by
  unfold persistRecord
  rw [ends_bind, ends_lift, nextRevision_of_lt (by have := h.room; omega), ok_answered]
  rw [ends_bind, spec_ask, true_and]
  rw [ends_bind, spec_consult, h.tick.replaceable hs, ok_answered]
  rw [if_pos rfl, ends_bind, ends_write, ends_pure]
  refine ⟨trivial, hR _ _ ?_⟩
  have hso := stamped_sound h.sound r.snapshot.revision (env.nowMillis w.clock)
  have hf := h.frame.trans (stamped_frame r (r.snapshot.revision + 1) (env.nowMillis w.clock))
  exact {
    frame := hf
    sound := hso
    task := h.task
    policy := h.policy
    prepared := h.prepared
    stored := ⟨_, rfl, hf, hso, rfl⟩
    reserved := h.reserved
    room := by have := h.room; change r.snapshot.revision + 1 + room < _; omega
    held := rfl }

/-- The record as a save leaves it: its revision, its stamp and its deadlines may move. -/
def IntegrationRecord.Resaved (r r' : IntegrationRecord) : Prop :=
  ∃ revision now retry deadline, r' = { r with
    admissionDeadlineMillis := deadline
    snapshot := { r.snapshot with
      revision := revision, updatedAtMillis := now, retryAtMillis := retry } }

theorem stamped_resaved (r : IntegrationRecord) (revision now : Nat) :
    r.Resaved (stamped r revision now) :=
  ⟨revision, now, r.snapshot.retryAtMillis, r.admissionDeadlineMillis, rfl⟩

theorem IntegrationRecord.Resaved.refl (r : IntegrationRecord) : r.Resaved r :=
  ⟨r.snapshot.revision, r.snapshot.updatedAtMillis, r.snapshot.retryAtMillis,
    r.admissionDeadlineMillis, rfl⟩

theorem IntegrationRecord.Resaved.trans {r r' r'' : IntegrationRecord} (h : r.Resaved r')
    (h' : r'.Resaved r'') : r.Resaved r'' := by
  obtain ⟨_, _, _, _, rfl⟩ := h
  obtain ⟨revision, now, retry, deadline, rfl⟩ := h'
  exact ⟨revision, now, retry, deadline, rfl⟩

/-- The pauses of the controller can be read. -/
def OwnerEnv.PausesKnown (env : OwnerEnv η) : Prop :=
  ∀ gate, env.gate = some gate → ∀ n since through,
    ∃ elapsed, gate.elapsedPauseTime n since through = .ok elapsed

section
variable (hs : Settling codec w₀ r₀)
include hs

theorem spec_extendElapsedPausesThrough (hp : env.PausesKnown)
    {gate : OwnerGate} (hg : env.gate = some gate) {through : Nat}
    (h : Ready w₀ r₀ (room + 1) w r)
    (hR : ∀ r' t, r.Resaved r' → Ready w₀ r₀ room t r' →
      (w.record = some r → t.record = some r') → R r' t) :
    Spec (extendElapsedPausesThrough codec env gate r through) w (fun _ => True) (Ends E R) := by
  unfold extendElapsedPausesThrough
  split
  · rw [ends_pure]
    exact hR r w (.refl r) h.less id
  · rename_i ha
    rw [ends_bind, spec_askChecked]
    obtain ⟨elapsed, hel⟩ := hp gate hg w.clock r.snapshot.updatedAtMillis through
    rw [hel]
    refine ⟨trivial, fun extra hex => ?_, nofun⟩
    cases hex
    split
    · have hr : Ready w₀ r₀ (room + 1) w.tick (extended r elapsed) :=
        h.tick.change { h.sound with pauseDeadline := fun hp => absurd (.inl hp) ha }
      refine spec_persistRecord hs hr fun now t ht => hR _ t ?_ ht.toReady fun _ => ht.held
      exact .trans ⟨r.snapshot.revision, r.snapshot.updatedAtMillis, _, _, rfl⟩
        (stamped_resaved _ _ _)
    · rw [ends_pure]
      exact hR r w.tick (.refl r) h.tick.less id

theorem spec_extendElapsedPauses (hp : env.PausesKnown) (h : Ready w₀ r₀ (room + 1) w r)
    (hR : ∀ r' t, r.Resaved r' → Ready w₀ r₀ room t r' →
      (w.record = some r → t.record = some r') → R r' t) :
    Spec (extendElapsedPauses codec env r) w (fun _ => True) (Ends E R) := by
  unfold extendElapsedPauses
  split
  · rw [ends_pure]
    exact hR r w (.refl r) h.less id
  · rename_i gate hg
    rw [ends_bind, spec_ask, true_and]
    exact spec_extendElapsedPausesThrough hs hp hg h.tick hR

theorem spec_saveRecord (hp : env.PausesKnown) (h : Ready w₀ r₀ (room + 2) w r)
    (hR : ∀ r' t, r.Resaved r' → Held w₀ r₀ room t r' → R r' t) :
    Spec (saveRecord codec env r) w (fun _ => True) (Ends E R) := by
  unfold saveRecord
  rw [ends_bind]
  refine spec_extendElapsedPauses hs hp h fun r' t hr' hr _ => ?_
  refine spec_persistRecord hs hr fun now t ht => hR _ t ?_ ht
  exact hr'.trans (stamped_resaved _ _ _)

/-! ## Reservations -/

theorem TargetReservation.validate_of (hf : r₀.Frame r) {actor} (ha : actor.Valid) :
    TargetReservation.validate codec (reservationOf r actor) = .ok () := by
  refine then_eq_ok.mpr ⟨?_, ensure_of ha⟩
  change r.targetKey.validate codec = _
  rw [hf.targetKey]
  exact hs.valid.key

end

theorem spec_releaseReservation (hs : Settling codec w₀ r₀) {R} (h : Ready w₀ r₀ room w r) {actor}
    (ha : r.actor = some actor) (hR : ∀ t, t.record = w.record → Ready w₀ r₀ room t r → R () t) :
    Spec (releaseReservation codec (reservationOf r actor)) w
      (fun _ => True) (Ends E R) := by
  unfold releaseReservation
  rw [ends_bind, ends_lift, TargetReservation.validate_of hs h.frame (h.sound.actor _ ha),
    ok_answered]
  rw [ends_bind, ends_get]
  split
  · rw [ends_pure]
    exact hR w rfl h
  · rename_i old hol
    have how := h.reserved actor old ha hol
    rw [ends_bind, ends_require]
    refine ⟨fun _ => ?_, fun hne => absurd how hne⟩
    rw [ends_write]
    refine ⟨trivial, hR _ rfl { h with reserved := fun _ old _ hol => ?_ }⟩
    have hne := (mem_filter.mp (mem_of_find?_eq_some hol)).2
    exact absurd (find?_some hol) (by simpa using hne)

theorem unclaimed_of_none (h : r.actor = none) : unclaimed r = r := by
  cases r
  cases h
  rfl

theorem unclaimed_ready (h : Ready w₀ r₀ room w r) : Ready w₀ r₀ room w (unclaimed r) :=
  h.change { h.sound with actor := nofun } (.inr rfl)

theorem spec_release (hs : Settling codec w₀ r₀) (h : Ready w₀ r₀ room w r)
    (hR : ∀ t, Ready w₀ r₀ room t (unclaimed r) → R (unclaimed r) t) :
    Spec (release codec r) w (fun _ => True) (Ends E R) := by
  unfold release
  split
  · rename_i ha
    rw [ends_pure]
    have := hR w (unclaimed_ready h)
    rwa [unclaimed_of_none ha] at this
  · rename_i actor ha
    rw [ends_bind]
    refine spec_releaseReservation hs h ha fun t _ ht => ?_
    rw [ends_pure]
    exact hR t (unclaimed_ready ht)

theorem spec_release_save (hs : Settling codec w₀ r₀) (hp : env.PausesKnown)
    (h : Ready w₀ r₀ (room + 2) w r)
    (hR : ∀ r' t, (unclaimed r).Resaved r' → Held w₀ r₀ room t r' → R r' t) :
    Spec (release codec r >>= saveRecord codec env) w (fun _ => True) (Ends E R) := by
  rw [ends_bind]
  exact spec_release hs h fun t ht => spec_saveRecord hs hp ht hR

/-- What a scan keeps of the files, and what it has seen when it comes to the end: the target
is free, or held by the same reservation. -/
theorem scanReservations_kept {exited wanted} :
    ∀ {l kept : List TargetReservation} {count : Nat} {found : ReservationScan},
      scanReservations exited wanted l count = (kept, found) →
      kept.Sublist l ∧ (∀ old ∈ l, old ∉ kept → exited old.actor = true) ∧
        (found = .held → kept.find? (·.key == wanted.key) = some wanted) ∧
        ∀ n, found = .others n → n = count + kept.length ∧ ∀ old ∈ kept, old.key ≠ wanted.key
  | [], kept, count, found, h => by
    cases h
    exact ⟨.refl _, nofun, nofun, by simp⟩
  | old :: rest, kept, count, found, h => by
    unfold scanReservations at h
    split at h
    · rename_i hol
      cases h
      exact ⟨.refl _, fun _ hin hou => absurd hin hou, fun _ => by simp [hol], nofun⟩
    · split at h
      · rename_i hex
        obtain ⟨hs, hd, hh, hot⟩ := scanReservations_kept h
        refine ⟨hs.cons _, fun old' hin hou => ?_, hh, hot⟩
        rcases mem_cons.mp hin with rfl | hin
        · exact hex
        · exact hd old' hin hou
      · split at h
        · cases h
          exact ⟨.refl _, fun _ hin hou => absurd hin hou, nofun, nofun⟩
        · rename_i hky
          cases h
          have hr : scanReservations exited wanted rest (count + 1) = (_, _) := rfl
          obtain ⟨hs, hd, hh, hot⟩ := scanReservations_kept hr
          refine ⟨hs.cons_cons _, fun old' hin hou => ?_, fun hf => ?_, fun n hf => ?_⟩
          · rcases mem_cons.mp hin with rfl | hin
            · exact absurd mem_cons_self hou
            · exact hd old' hin fun hk => hou (mem_cons_of_mem _ hk)
          · rw [find?_cons_of_neg (by simpa using hky)]
            exact hh hf
          · obtain ⟨hc, hke⟩ := hot n hf
            refine ⟨by rw [hc, length_cons]; omega, fun old' hin => ?_⟩
            rcases mem_cons.mp hin with rfl | hin
            · exact hky
            · exact hke old' hin

theorem spec_reserve (hs : Settling codec w₀ r₀) {actor R} (h : Held w₀ r₀ room w r)
    (hf : r.actor = none) (hfa : ∀ t, E (.failed "PROTOCOL") t)
    (hn : ∀ t, Held w₀ r₀ room t r → R none t) (hso : ∀ t, actor.Valid → Held w₀ r₀ room t r →
      t.reservations.find? (·.key == r.targetKey) =
      some (reservationOf r actor) →
      R (some (reservationOf r actor)) t) :
    Spec (reserve codec env r actor) w (fun _ => True) (Ends E R) := by
  -- The list of reservations is all that a reservation changes.
  have hk : ∀ l, Held w₀ r₀ room (w.tick.setReservations l) r := fun l =>
    { h with reserved := fun a old ha => absurd ha (by simp [hf]) }
  unfold reserve
  rw [ends_bind, ends_lift]
  constructor
  · intro _ hv
    have hac : actor.Valid := by
      obtain ⟨-, hac⟩ := of_then hv
      exact ensure_eq_ok.mp hac
    rw [ends_bind, spec_ask, true_and]
    rw [ends_bind, ends_get]
    split
    · rename_i kept hsc
      rw [ends_bind, ends_write, ends_pure]
      exact ⟨trivial, hso _ hac (hk kept) ((scanReservations_kept hsc).2.2.1 rfl)⟩
    · rename_i kept hsc
      rw [ends_bind, ends_write, ends_pure]
      exact ⟨trivial, hn _ (hk kept)⟩
    · rename_i kept count hsc
      split
      · rw [ends_bind, ends_write, ends_pure]
        exact ⟨trivial, hn _ (hk kept)⟩
      · rw [ends_bind, ends_write, ends_pure]
        refine ⟨trivial, hso _ hac (hk _) ?_⟩
        have hfr : kept.find? (·.key == r.targetKey) = none := by
          simpa using ((scanReservations_kept hsc).2.2.2 count rfl).2
        change (kept ++ [_]).find? _ = _
        rw [find?_append, hfr]
        simp
  · intro e he
    have hke : r.targetKey.validate codec = .ok () := by
      rw [h.frame.targetKey]
      exact hs.valid.key
    unfold TargetReservation.validate at he
    rw [hke, bind_ok, ensure] at he
    split at he
    · cases he
    · cases he
      exact hfa w

/-! ## Blocking and parking -/

theorem blocked_sound (h : r.Sound) (code : IntegrationCode) : (blocked r code).Sound :=
  { h with
    pauseReason := rfl
    resumeState := rfl
    restores := rfl
    blocked := fun _ => rfl
    integrated := nofun
    parked := rfl
    pausedFor := nofun
    pauseDeadline := nofun }

theorem spec_block (hs : Settling codec w₀ r₀) (hp : env.PausesKnown) {code}
    (h : Ready w₀ r₀ (room + 2) w r)
    (hR : ∀ r' t, r'.snapshot.state = .blocked → Held w₀ r₀ room t r' → R r' t) :
    Spec (block codec env r code) w (fun _ => True) (Ends E R) := by
  have hr : Ready w₀ r₀ (room + 2) w (blocked r code) :=
    h.change (blocked_sound h.sound code)
  refine spec_release_save hs hp hr fun r' t hr' ht => hR r' t ?_ ht
  obtain ⟨_, _, _, _, rfl⟩ := hr'
  rfl

/-- A state that a pause can leave and come back to. -/
def Pausable (r : IntegrationRecord) : Prop :=
  r.snapshot.state = .retryWait ∨ IntegrationSnapshot.restorable r.snapshot.state = true

theorem Pausable.not_parked (h : Pausable r) : r.snapshot.state ≠ .parked := by
  intro hs
  rcases h with h | h
  · cases hs.symm.trans h
  · rw [hs] at h
    cases h

theorem Pausable.no_pause (h : Pausable r) (hs : r.Sound) : r.pause = none := by
  have := hs.parked
  rw [beq_false_of_ne h.not_parked] at this
  simpa using this

theorem parked_sound (h : r.Sound) (hs : Pausable r) (pause : IntegrationPauseEvidence) :
    (parked r pause).Sound :=
  { h with
    pauseReason := rfl
    resumeState := by
      change (if r.snapshot.state = .retryWait then r.snapshot.resumeState
        else some r.snapshot.state).isSome = true
      split
      · rename_i hw
        rw [h.resumeState, hw]
        rfl
      · rfl
    restores := by
      change (if r.snapshot.state = .retryWait then r.snapshot.resumeState
        else some r.snapshot.state).all _ = true
      split
      · exact h.restores
      · rename_i hw
        exact hs.resolve_left hw
    blocked := nofun
    integrated := nofun
    admission := by
      change ((r.admissionDeadlineMillis.map _).or r.remainingAdmissionMillis).all _ = true
      cases r.admissionDeadlineMillis with
      | none => exact h.admission
      | some deadline => simp
    backoff := by
      change ((r.snapshot.retryAtMillis.map _).or r.remainingBackoffMillis).all _ = true
      cases r.snapshot.retryAtMillis with
      | none => exact h.backoff
      | some due => simp
    parked := rfl
    pausedFor := by
      intro p hp
      cases hp
      rfl
    pauseDeadline := fun _ => rfl }

theorem resaved_frame (h : r.Resaved r') : r.Frame r' := by
  obtain ⟨_, _, _, _, rfl⟩ := h
  exact { IntegrationRecord.Frame.refl r with }

theorem Pausable.resaved (h : Pausable r) (hr' : r.Resaved r') : Pausable r' := by
  obtain ⟨_, _, _, _, rfl⟩ := hr'
  exact h

section
variable (hs : Settling codec w₀ r₀) (hpa : env.PausesKnown) {pause : IntegrationPauseEvidence}
  (h : Ready w₀ r₀ (room + 2) w r) (hst : Pausable r)
  (hR : ∀ r' t, r'.snapshot.state = .parked → Held w₀ r₀ room t r' → R r' t)
include hs hpa h hst hR

theorem spec_parkActive :
    Spec (parkActive codec env r pause) w (fun _ => True) (Ends E R) := by
  -- Releasing the target and storing the pause is the same whether or not deadlines moved.
  have hp : ∀ {t r'}, r.Resaved r' → Ready w₀ r₀ (room + 1) t r' →
      Spec (release codec (parked r' pause) >>= persistRecord codec env) t (fun _ => True)
        (Ends E R) := by
    intro t r' hr' ht
    have hr : Ready w₀ r₀ (room + 1) t (parked r' pause) :=
      ht.change (parked_sound ht.sound (hst.resaved hr') pause)
    rw [ends_bind]
    refine spec_release hs hr fun t ht => spec_persistRecord hs ht fun now t ht => ?_
    exact hR _ t rfl ht
  have hop : ¬ (r.snapshot.state = .blocked ∨ r.snapshot.state = .integrated ∨
      r.snapshot.state = .revoked) := by
    rintro (hs | hs | hs) <;> rcases hst with h | h <;> rw [hs] at h <;> cases h
  unfold parkActive
  rw [if_neg hop]
  split
  · rw [ends_bind, ends_pure]
    exact hp (.refl r) (h.less (n := 1))
  · rename_i gate hg
    rw [ends_bind]
    exact spec_extendElapsedPausesThrough hs hpa hg h fun r' t hr' ht _ => hp hr' ht

theorem spec_parkRecord :
    Spec (parkRecord codec env r pause) w (fun _ => True) (Ends E R) := by
  unfold parkRecord
  rw [hst.no_pause h.sound]
  exact spec_parkActive hs hpa h hst hR

end

/-! ## Backing off -/

theorem backedOff_sound (h : r.Sound) (hs : IntegrationSnapshot.restorable r.snapshot.state)
    {phase code before after retry delay} (hsp : r.phaseRetries = before ++ retry :: after)
    (hd : nextRetry retry = some delay) (due now : Nat) :
    (backedOff r phase code before after retry due now).Sound := by
  have hpa : Pausable r := .inr hs
  have hpr := hpa.not_parked
  have hps := hpa.no_pause h
  have hr := h.retries
  have hph := h.phases
  rw [hsp] at hr hph
  have hl : retry.retries < 3 := by
    obtain ⟨hlt, -⟩ := List.getElem?_eq_some_iff.mp hd
    exact hlt
  exact { h with
    pauseReason := by
      have := h.pauseReason
      rw [beq_false_of_ne hpr] at this
      exact this
    resumeState := rfl
    restores := by
      change (some (if phase = .push then _ else _)).all _ = true
      split
      · rfl
      · exact hs
    blocked := nofun
    integrated := nofun
    retries := by
      change (before ++ { retry with retries := _, code := _, dueAtMillis := _ } :: after).all _ = _
      simp only [all_append, all_cons, Bool.and_eq_true] at hr ⊢
      exact ⟨hr.1, decide_eq_true (Nat.succ_le_of_lt hl), hr.2.2⟩
    phases := by simpa [backedOff] using hph
    parked := by
      have := h.parked
      rw [beq_false_of_ne hpr] at this
      exact this
    pausedFor := by
      intro p hp
      change r.pause = some p at hp
      cases hps.symm.trans hp
    pauseDeadline := by
      intro hp
      change r.pause.isSome = true at hp
      rw [hps] at hp
      cases hp }

theorem spec_retryPhase (hs : Settling codec w₀ r₀) (hp : env.PausesKnown) {phase code}
    (h : Ready w₀ r₀ (room + 2) w r) (hst : IntegrationSnapshot.restorable r.snapshot.state)
    (hph : ∃ retry ∈ r.phaseRetries, retry.phase = phase)
    (hR : ∀ r' t, (r'.snapshot.state = .parked ∨ r'.snapshot.state = .blocked ∨
      r'.snapshot.state = .retryWait) → Held w₀ r₀ room t r' → R r' t) :
    Spec (retryPhase codec env r phase code) w (fun _ => True) (Ends E R) := by
  unfold retryPhase
  split
  · rw [ends_bind, spec_ask, true_and]
    refine spec_parkRecord hs hp h.tick (.inr hst) fun r' t hr' ht => ?_
    exact hR r' t (.inl hr') ht
  · split
    · exact spec_block hs hp h fun r' t hr' ht => hR r' t (.inr (.inl hr')) ht
    · split
      · rename_i hn
        obtain ⟨retry, hm, hre⟩ := hph
        simpa [hre] using splitFirst_none hn retry hm
      · rename_i before retry after hf
        obtain ⟨hsp, -⟩ := splitFirst_some hf
        split
        · have hr : Ready w₀ r₀ (room + 2) w
              { r with snapshot := { r.snapshot with retryExhausted := true } } :=
            h.change { h.sound with }
          exact spec_block hs hp hr fun r' t hr' ht => hR r' t (.inr (.inl hr')) ht
        · rename_i delay hd
          rw [ends_bind, spec_ask, true_and]
          rw [ends_bind, spec_ask, true_and]
          have hr : Ready w₀ r₀ (room + 2) w.tick.tick (backedOff r phase code before after
              retry (saturatingAdd (env.nowMillis w.clock) delay)
              (env.nowMillis w.tick.clock)) :=
            h.tick.tick.change (backedOff_sound h.sound hst hsp hd _ _)
          refine spec_release_save hs hp hr fun r' t hr' ht => hR r' t ?_ ht
          obtain ⟨_, _, _, _, rfl⟩ := hr'
          exact .inr (.inr rfl)

end

end

end MacWorker.Integration
