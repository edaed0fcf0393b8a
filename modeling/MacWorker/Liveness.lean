import MacWorker.Queue.World

/-! # Whether a runner is still there

A runner is given up only when its process is known to be gone: its number belongs to
another process, or it was absent twice, far enough apart, with nothing else seen of it in
between. What was seen is kept by the looking process alone. -/
namespace MacWorker.Liveness
open List
open Queue (RunnerLivenessVerdict)

inductive ProcessObservation where
  | matching (processGroup : Nat)
  | absent
  | reused
  | ambiguous
  deriving DecidableEq

/-- Both maps are keyed by the number and the start time of a process, which are its
identity. -/
structure RunnerLivenessTracking where
  (absenceFirstSeen unverifiableSince : ProcessIdentity → Option Nat)

structure Look where
  identity : ProcessIdentity
  observation : ProcessObservation
  now : Nat

namespace RunnerLivenessTracking

def empty : RunnerLivenessTracking := ⟨fun _ => none, fun _ => none⟩

def forget (tracking : RunnerLivenessTracking) (identity : ProcessIdentity) :
    RunnerLivenessTracking :=
  ⟨Function.update tracking.absenceFirstSeen identity none,
    Function.update tracking.unverifiableSince identity none⟩

def doubt (tracking : RunnerLivenessTracking) (identity : ProcessIdentity) (now : Nat) :
    ProcessIdentity → Option Nat :=
  Function.update tracking.unverifiableSince identity
    (tracking.unverifiableSince identity <|> some now)

end RunnerLivenessTracking

open RunnerLivenessTracking

def runnerIdentityVerdict (confirmation : Nat) (tracking : RunnerLivenessTracking) (look : Look) :
    RunnerLivenessTracking × RunnerLivenessVerdict :=
  let ⟨identity, observation, now⟩ := look
  match observation with
  | .matching _ => (tracking.forget identity, .live)
  | .reused => (tracking.forget identity, .exited)
  | .ambiguous =>
    (⟨Function.update tracking.absenceFirstSeen identity none, tracking.doubt identity now⟩,
      .unverifiable)
  | .absent =>
    match tracking.absenceFirstSeen identity with
    | none =>
      (⟨Function.update tracking.absenceFirstSeen identity (some now),
        tracking.doubt identity now⟩, .unverifiable)
    | some first =>
      (⟨tracking.absenceFirstSeen, tracking.doubt identity now⟩,
        if confirmation ≤ now - first then .exited else .unverifiable)

/-- What is known after looks, the latest of which comes first. -/
def track (confirmation : Nat) : List Look → RunnerLivenessTracking
  | [] => empty
  | look :: past => (runnerIdentityVerdict confirmation (track confirmation past) look).1

/-- The process was absent at some time and was only ever absent since. -/
def AbsentSince (past : List Look) (identity : ProcessIdentity) (time : Nat) : Prop :=
  ∃ since first before, past = since ++ first :: before ∧ first.identity = identity ∧
    first.observation = .absent ∧ first.now = time ∧
    ∀ look ∈ since, look.identity = identity → look.observation = .absent

variable {confirmation time : Nat} {past since before : List Look} {look other : Look}
  {identity : ProcessIdentity}

theorem absentSince_cons : AbsentSince (look :: past) identity time ↔
    (look.identity = identity → look.observation = .absent) ∧
      (look.identity = identity ∧ look.now = time ∨ AbsentSince past identity time) := by
  constructor
  · rintro ⟨since, first, before, hp, hid, ha, ht, hs⟩
    rcases cons_eq_append_iff.mp hp with ⟨rfl, hf⟩ | ⟨since, rfl, rfl⟩
    · cases hf
      exact ⟨fun _ => ha, .inl ⟨hid, ht⟩⟩
    · obtain ⟨hl, hs⟩ := forall_mem_cons.mp hs
      exact ⟨hl, .inr ⟨since, first, before, rfl, hid, ha, ht, hs⟩⟩
  · rintro ⟨hl, ⟨hid, ht⟩ | ⟨since, first, before, rfl, hid, ha, ht, hs⟩⟩
    · exact ⟨[], look, past, rfl, hid, hl hid, ht, by simp⟩
    · exact ⟨look :: since, first, before, rfl, hid, ha, ht, forall_mem_cons.mpr ⟨hl, hs⟩⟩

theorem AbsentSince.le (h : AbsentSince past identity time)
    (hc : ∀ other ∈ past, other.now ≤ look.now) : time ≤ look.now := by
  obtain ⟨since, first, before, rfl, -, -, rfl, -⟩ := h
  exact hc first (by simp)

theorem absenceFirstSeen_track_cons :
    (track confirmation (look :: past)).absenceFirstSeen identity =
      if look.identity = identity then
        if look.observation = .absent then
          (track confirmation past).absenceFirstSeen identity <|> some look.now
        else none
      else (track confirmation past).absenceFirstSeen identity := by
  obtain ⟨id, observation, now⟩ := look
  by_cases hid : id = identity
  · subst hid
    cases observation with
    | absent => cases h : (track confirmation past).absenceFirstSeen id <;>
        simp [track, runnerIdentityVerdict, h]
    | _ => simp [track, runnerIdentityVerdict, forget]
  · cases observation with
    | absent => cases h : (track confirmation past).absenceFirstSeen id <;>
        simp [track, runnerIdentityVerdict, h, hid, Ne.symm hid]
    | _ => simp [track, runnerIdentityVerdict, forget, hid, Ne.symm hid]

/-- The absence that is remembered is the earliest since anything else was seen. -/
theorem absenceFirstSeen_track (hc : past.Pairwise fun newer older => older.now ≤ newer.now) :
    match (track confirmation past).absenceFirstSeen identity with
    | none => ∀ time, ¬ AbsentSince past identity time
    | some first => AbsentSince past identity first ∧
        ∀ time, AbsentSince past identity time → first ≤ time := by
  induction past with
  | nil =>
    rintro time ⟨since, first, before, hn, -⟩
    simp at hn
  | cons look past ih =>
    obtain ⟨hno, hc⟩ := pairwise_cons.mp hc
    have ih := ih hc
    simp only [absenceFirstSeen_track_cons, absentSince_cons]
    by_cases hid : look.identity = identity
    · by_cases ha : look.observation = .absent
      · cases hs : (track confirmation past).absenceFirstSeen identity with
        | none => simp_all
        | some first =>
          rw [hs] at ih
          rw [if_pos hid, if_pos ha]
          refine ⟨⟨fun _ => ha, .inr ih.1⟩, ?_⟩
          rintro time ⟨-, ⟨-, rfl⟩ | h⟩
          · exact ih.1.le hno
          · exact ih.2 time h
      · simp [hid, ha]
    · simp_all

theorem AbsentSince.later (h : AbsentSince (since ++ other :: before) identity time)
    (hid : other.identity = identity) (hot : other.observation ≠ .absent) :
    AbsentSince since identity time := by
  obtain ⟨since', first, before', heq, hf, ha, ht, hsi⟩ := h
  rcases append_eq_append_iff.mp heq with ⟨more, rfl, hm⟩ | ⟨more, rfl, hm⟩
  · rcases cons_eq_append_iff.mp hm with ⟨rfl, hs⟩ | ⟨more, rfl, -⟩
    · cases hs
      exact absurd ha hot
    · exact absurd (hsi other (by simp) hid) hot
  · rcases cons_eq_append_iff.mp hm with ⟨rfl, hs⟩ | ⟨more, rfl, -⟩
    · cases hs
      exact absurd ha hot
    · exact ⟨since', first, more, rfl, hf, ha, ht, hsi⟩

/-- **A runner is declared dead only on proof.** A look finds a runner dead exactly if its
number belongs to another process, or it is absent and was absent at an earlier look that
is long enough ago, with only absences of it in between; what was seen of it before
anything but an absence does not count. -/
theorem exited_iff (confirmation : Nat) (past : List Look) (look : Look)
    (hclock : (look :: past).Pairwise fun newer older => older.now ≤ newer.now) :
    ((runnerIdentityVerdict confirmation (track confirmation past) look).2 = .exited ↔
      look.observation = .reused ∨ look.observation = .absent ∧
        ∃ first, AbsentSince past look.identity first ∧ first + confirmation ≤ look.now) ∧
    ∀ since seen before, past = since ++ seen :: before → seen.identity = look.identity →
      seen.observation ≠ .absent → ∀ first, AbsentSince past look.identity first →
      AbsentSince since look.identity first := by
  obtain ⟨hn, hp⟩ := pairwise_cons.mp hclock
  refine ⟨?_, fun since seen before hsp hid hs first hf =>
    (hsp ▸ hf).later hid hs⟩
  have hs := @absenceFirstSeen_track confirmation past look.identity hp
  obtain ⟨identity, observation, now⟩ := look
  cases observation with
  | absent =>
    cases h : (track confirmation past).absenceFirstSeen identity with
    | none =>
      rw [h] at hs
      simpa [runnerIdentityVerdict, h] using fun first hf => absurd hf (hs first)
    | some first =>
      rw [h] at hs
      obtain ⟨hf, hl⟩ := hs
      have hle : first ≤ now := hf.le hn
      suffices hif : confirmation ≤ now - first ↔
          ∃ first, AbsentSince past identity first ∧ first + confirmation ≤ now by
        simpa [runnerIdentityVerdict, h] using hif
      constructor
      · exact fun hlo => ⟨first, hf, by omega⟩
      · rintro ⟨first', hf', hlo⟩
        have := hl first' hf'
        omega
  | _ => simp [runnerIdentityVerdict]

/-- Two absences of a process, with the confirmation interval of the code between them. -/
theorem exited_iff_absent_twice :
    (runnerIdentityVerdict 750 (track 750 [⟨⟨7, 7⟩, .absent, 100⟩]) ⟨⟨7, 7⟩, .absent, 850⟩).2 =
      .exited ∧ ∃ first, AbsentSince [⟨⟨7, 7⟩, .absent, 100⟩] ⟨7, 7⟩ first ∧ first + 750 ≤ 850 := by
  have hex : (runnerIdentityVerdict 750 (track 750 [⟨⟨7, 7⟩, .absent, 100⟩])
      ⟨⟨7, 7⟩, .absent, 850⟩).2 = .exited := by decide
  refine ⟨hex, ?_⟩
  rcases (exited_iff 750 _ _ (by decide)).1.mp hex with hr | ha
  · cases hr
  · exact ha.2

end MacWorker.Liveness
