import MacWorker.Integration.WonStop

/-! # One driver per target

The reservations of targets are files of one directory that any number of processes share.
A process takes a reservation before it drives a target and gives it up afterwards, each
under the lock of the directory, which is listed in any order.

Giving up a reservation names all of it: the target, the cycle, its epoch and the process.
The call does not ask who makes it, and a stop makes it for the process that the stored
record names. -/
namespace MacWorker.Integration
open Fallible Durable Relation List

/-! ## Calls -/

/-- The directory: every file is valid, no two are of one target, and no more than the allowed
drivers hold one. -/
structure Exclusive (codec : Codec) (files : List TargetReservation) : Prop where
  valid : ∀ r ∈ files, r.validate codec = .ok ()
  targets : (files.map (·.key)).Nodup
  bounded : files.length ≤ maxGitDrivers

section
variable {codec : Codec} {files files' : List TargetReservation} {r : TargetReservation}

theorem Exclusive.perm (h : Exclusive codec files) (hp : files'.Perm files) :
    Exclusive codec files' where
  valid r hr := h.valid r (hp.mem_iff.mp hr)
  targets := (hp.map _).nodup_iff.mpr h.targets
  bounded := by
    rw [hp.length_eq]
    exact h.bounded

theorem Exclusive.sublist (h : Exclusive codec files) (hs : files'.Sublist files) :
    Exclusive codec files' where
  valid r hr := h.valid r (hs.subset hr)
  targets := h.targets.sublist (hs.map _)
  bounded := hs.length_le.trans h.bounded

theorem Exclusive.add (h : Exclusive codec files) (hv : r.validate codec = .ok ())
    (hf : ∀ old ∈ files, old.key ≠ r.key) (hr : files.length < maxGitDrivers) :
    Exclusive codec (files ++ [r]) where
  valid old hol := by
    rcases mem_append.mp hol with hin | hne
    · exact h.valid old hin
    · rwa [mem_singleton.mp hne]
  targets := by
    rw [map_append, map_singleton]
    refine h.targets.append (nodup_singleton _) ?_
    intro key hin hk
    obtain ⟨old, hol, rfl⟩ := mem_map.mp hin
    exact hf old hol (mem_singleton.mp hk)
  bounded := by
    rw [length_append, length_singleton]
    exact hr

theorem scanReservations_held (exited : ProcessIdentity → Bool) (hm : r ∈ files)
    (ho : ∀ old ∈ files, old.key = r.key → old = r) (count : Nat) :
    (scanReservations exited r files count).2 = .held := by
  induction files generalizing count with
  | nil => cases hm
  | cons old rest ih =>
    unfold scanReservations
    split
    · rfl
    · rename_i hne
      have hre : r ∈ rest := (mem_cons.mp hm).resolve_left fun h => hne h.symm
      have ih := ih hre fun old hol => ho old (mem_cons_of_mem _ hol)
      split
      · exact ih count
      · rw [if_neg fun hk => hne (ho old mem_cons_self hk)]
        exact ih (count + 1)

end

/-- A call as the directory sees it. -/
inductive ReservationCall where
  /-- The processes that have exited as the call asks for them, and its answer. -/
  | acquire (exited : ProcessIdentity → Bool) (r : TargetReservation)
      (answer : Checked (Option TargetReservation))
  /-- A process that dies while it scans leaves what it has removed by then. -/
  | cut (exited : ProcessIdentity → Bool)
  | release (r : TargetReservation)

/-- What a call does to the directory, which it finds listed in any order. -/
inductive ReservationStep {η : Type} (codec : Codec) (files : List TargetReservation) :
    ReservationCall → List TargetReservation → Prop
  | acquire (env : OwnerEnv η) (w : OwnerWorld η) (record : IntegrationRecord)
      (actor : ProcessIdentity) : w.reservations.Perm files →
      ReservationStep codec files (.acquire (env.exited w.clock) (reservationOf record actor)
          ((reserve codec env record actor).answer w))
        ((reserve codec env record actor).final w).reservations
  | cut (exited : ProcessIdentity → Bool) (left : List TargetReservation) : left.Sublist files →
      (∀ old ∈ files, old ∉ left → exited old.actor = true) →
      ReservationStep codec files (.cut exited) left
  | release (w : OwnerWorld η) (r : TargetReservation) : w.reservations.Perm files →
      ReservationStep codec files (.release r) ((releaseReservation codec r).final w).reservations

/-- What a call may take away, put down and answer. -/
def ReservationCall.Allows (call : ReservationCall) (files files' : List TargetReservation) :
    Prop :=
  match call with
  | .acquire exited r answer =>
    (∀ old ∈ files, old ∉ files' → exited old.actor = true) ∧
      (∀ new ∈ files', new ∉ files → new = r) ∧ (r ∈ files → answer = .ok (some r)) ∧
      ∀ r', answer = .ok (some r') ↔ r' = r ∧ r ∈ files'
  | .cut exited =>
    (∀ old ∈ files, old ∉ files' → exited old.actor = true) ∧ ∀ new ∈ files', new ∈ files
  | .release r => (∀ old ∈ files, old ∉ files' → old = r) ∧ (∀ new ∈ files', new ∈ files) ∧
      r ∉ files'

section
variable {η : Type} (codec : Codec) {w : OwnerWorld η}
  {files files' : List TargetReservation}

theorem spec_reserve_files (env : OwnerEnv η) (record : IntegrationRecord)
    (actor : ProcessIdentity) (h : Exclusive codec w.reservations) :
    Spec (reserve codec env record actor) w (fun _ => True) fun answer t =>
      Exclusive codec t.reservations ∧
        (ReservationCall.acquire (env.exited w.clock) (reservationOf record actor) answer).Allows
          w.reservations t.reservations := by
  -- A call that is refused leaves a part of the directory, and its reservation was not there.
  have hn : ∀ (answer : Checked (Option TargetReservation)) (kept : List TargetReservation),
      kept.Sublist w.reservations →
      (∀ old ∈ w.reservations, old ∉ kept → env.exited w.clock old.actor = true) →
      (∀ r', answer ≠ .ok (some r')) → reservationOf record actor ∉ w.reservations →
      Exclusive codec kept ∧ (ReservationCall.acquire (env.exited w.clock)
        (reservationOf record actor) answer).Allows w.reservations kept := by
    intro answer kept hsu hd ha hno
    exact ⟨h.sublist hsu, hd, fun new hne hf => absurd (hsu.subset hne) hf,
      fun hin => absurd hin hno,
      fun r' => ⟨fun hr' => absurd hr' (ha r'), fun hr' => absurd (hsu.subset hr'.2) hno⟩⟩
  unfold reserve
  rw [spec_bind, spec_lift]
  cases hv : (reservationOf record actor).validate codec with
  | error e =>
    have hno : reservationOf record actor ∉ w.reservations := fun hin => by
      cases hv.symm.trans (h.valid _ hin)
    exact hn _ _ (.refl _) (fun _ hin hou => absurd hin hou) (by simp) hno
  | ok _ =>
    have hheld : ∀ kept found, scanReservations (env.exited w.clock) (reservationOf record actor)
        w.reservations 0 = (kept, found) → found ≠ .held →
        reservationOf record actor ∉ w.reservations := by
      intro kept found hs hne hin
      have hu := scanReservations_held (env.exited w.clock) hin
        (fun old hol hk => inj_on_of_nodup_map h.targets hol hin hk) 0
      rw [hs] at hu
      exact hne hu
    unfold ask
    simp only [spec_bind, spec_get, spec_write, spec_pure]
    refine ⟨trivial, ?_⟩
    split
    · rename_i kept hs
      obtain ⟨hsu, hd, hh, -⟩ := scanReservations_kept hs
      have hin := mem_of_find?_eq_some (hh rfl)
      simp only [spec_bind, spec_write, spec_pure]
      refine ⟨trivial, h.sublist hsu, hd, fun new hne hf => absurd (hsu.subset hne) hf,
        fun _ => rfl, fun r' => ⟨fun hr' => ?_, fun hr' => by rw [hr'.1]⟩⟩
      cases hr'
      exact ⟨rfl, hin⟩
    · rename_i kept hs
      obtain ⟨hsu, hd, -⟩ := scanReservations_kept hs
      simp only [spec_bind, spec_write, spec_pure]
      exact ⟨trivial, hn _ kept hsu hd (by simp) (hheld _ _ hs (by simp))⟩
    · rename_i kept count hs
      obtain ⟨hsu, hd, -, hot⟩ := scanReservations_kept hs
      obtain ⟨hc, hfr⟩ := hot count rfl
      by_cases hfu : maxGitDrivers ≤ count
      · rw [if_pos hfu]
        simp only [spec_bind, spec_write, spec_pure]
        exact ⟨trivial, hn _ kept hsu hd (by simp) (hheld _ _ hs (by simp))⟩
      · rw [if_neg hfu]
        simp only [spec_bind, spec_write, spec_pure]
        refine ⟨trivial, (h.sublist hsu).add hv hfr (by omega), ?_, ?_, fun _ => rfl, ?_⟩
        · intro old hin hou
          exact hd old hin fun hk => hou (mem_append_left _ hk)
        · intro new hne hf
          rcases mem_append.mp hne with hk | had
          · exact absurd (hsu.subset hk) hf
          · exact mem_singleton.mp had
        · refine fun r' => ⟨fun hr' => ?_, fun hr' => by rw [hr'.1]⟩
          cases hr'
          exact ⟨rfl, mem_append_right _ mem_cons_self⟩

theorem spec_release_files (r : TargetReservation) (h : Exclusive codec w.reservations) :
    Spec (releaseReservation codec r) w (fun _ => True) fun _ t =>
      Exclusive codec t.reservations ∧
        (ReservationCall.release r).Allows w.reservations t.reservations := by
  have hs : r ∉ w.reservations → Exclusive codec w.reservations ∧
      (ReservationCall.release r).Allows w.reservations w.reservations :=
    fun hno => ⟨h, fun _ hin hou => absurd hin hou, fun _ hin => hin, hno⟩
  unfold releaseReservation
  rw [spec_bind, spec_lift]
  cases hv : r.validate codec with
  | error e => exact hs fun hin => by cases hv.symm.trans (h.valid r hin)
  | ok _ =>
    simp only [spec_bind, spec_get]
    cases hf : w.reservations.find? (·.key == r.key) with
    | none =>
      exact spec_pure.mpr (hs fun hin => by simpa using find?_eq_none.mp hf r hin)
    | some old =>
      -- The only file of the target is the one that is compared.
      have hon : ∀ other ∈ w.reservations, other.key = r.key → other = old := by
        intro other hin hk
        have hol : old.key = r.key := by simpa using find?_some hf
        exact inj_on_of_nodup_map h.targets hin (mem_of_find?_eq_some hf) (hk.trans hol.symm)
      simp only [spec_bind, spec_require, spec_write]
      refine ⟨fun hod => ⟨trivial, h.sublist filter_sublist, ?_, ?_, ?_⟩, fun hne => ?_⟩
      · intro other hin hou
        refine (hon other hin ?_).trans hod
        by_contra hne
        exact hou (mem_filter.mpr ⟨hin, by simpa using hne⟩)
      · exact fun new hn => mem_of_mem_filter hn
      · intro hin
        simpa using (mem_filter.mp hin).2
      · exact hs fun hin => hne (hon r hin rfl).symm

variable {codec}

theorem ReservationStep.allows {call} (hs : ReservationStep (η := η) codec files call files')
    (h : Exclusive codec files) :
    Exclusive codec files' ∧ call.Allows files files' := by
  cases hs with
  | acquire env w record actor hp =>
    obtain ⟨hex, hd, hf, hh, ha⟩ := (spec_reserve_files codec env record actor (h.perm hp)).2
    exact ⟨hex, fun old hin => hd old (hp.mem_iff.mpr hin),
      fun new hn hou => hf new hn (fun hin => hou (hp.mem_iff.mp hin)),
      fun hin => hh (hp.mem_iff.mpr hin), ha⟩
  | cut exited left hsu hd =>
    exact ⟨h.sublist hsu, hd, fun _ hin => hsu.subset hin⟩
  | release w r hp =>
    obtain ⟨hex, hd, hk, hno⟩ := (spec_release_files codec r (h.perm hp)).2
    exact ⟨hex, fun old hin => hd old (hp.mem_iff.mpr hin),
      fun new hn => hp.mem_iff.mp (hk new hn), hno⟩

/-- **One driver per target.** Along every run of calls no target is reserved twice and no
more targets are reserved than there may be drivers. A call that asks for a reservation
takes away only those of exited processes, puts down only its own, and answers with it
exactly when it stands afterwards, which it does if it stood before. A call that gives a
reservation up takes away the very one it names and no other. -/
theorem one_driver_per_target {call : ReservationCall}
    (hrun : ReflTransGen (fun a b => ∃ call, ReservationStep (η := η) codec a call b) [] files)
    (hstep : ReservationStep (η := η) codec files call files') :
    Exclusive codec files ∧ Exclusive codec files' ∧ call.Allows files files' := by
  have hf : Exclusive codec files := by
    have hem : Exclusive codec [] := ⟨nofun, nodup_nil, Nat.zero_le _⟩
    refine Reach.invariant (fun a b ha hc => ?_) hem hrun
    obtain ⟨call, hc⟩ := hc
    exact (hc.allows ha).1
  exact ⟨hf, hstep.allows hf⟩

end

/-! ## A stop gives up what another process holds -/

def driver : ProcessIdentity := ⟨2, 5⟩

/-- The sample's cycle as its driver pushes. -/
def drivenCycle : IntegrationRecord := { cycleIn .pushing none with actor := some driver }

/-- A process that stops the cycle; no process has exited, and the host confirms. -/
def stopperEnv : OwnerEnv Unit :=
  { wonEnv with host := fun _ request _ => ((), .ok (.revoked (.forRequest request))) }

/-- The owner's files once the driver has its reservation. -/
def driven : OwnerWorld Unit :=
  (reserve sampleCodec stopperEnv drivenCycle driver).final (ownerOf drivenCycle)

/-- The driver holds its target. Another process that asks for it gets nothing, and nothing
changes; once the driver gives it up, the directory is empty. -/
theorem one_driver_per_target_driven :
    let held := reservationOf drivenCycle driver
    driven.reservations = [held] ∧
      (ReservationCall.acquire (stopperEnv.exited 0) (reservationOf drivenCycle stopperEnv.actor)
        (.ok none)).Allows [held] [held] ∧
      (ReservationCall.release held).Allows [held] [] := by
  have hh : ReflTransGen (fun a b => ∃ call, ReservationStep (η := Unit) sampleCodec a call b) []
      [reservationOf drivenCycle driver] :=
    .single ⟨_, .acquire stopperEnv (ownerOf drivenCycle) drivenCycle driver (.refl _)⟩
  have ha : ReservationStep (η := Unit) sampleCodec [reservationOf drivenCycle driver]
      (.acquire (stopperEnv.exited 0) (reservationOf drivenCycle stopperEnv.actor) (.ok none))
      [reservationOf drivenCycle driver] :=
    .acquire stopperEnv driven drivenCycle stopperEnv.actor (.refl _)
  have hr : ReservationStep (η := Unit) sampleCodec [reservationOf drivenCycle driver]
      (.release (reservationOf drivenCycle driver)) [] :=
    .release driven (reservationOf drivenCycle driver) (.refl _)
  exact ⟨rfl, (one_driver_per_target hh ha).2.2, (one_driver_per_target hh hr).2.2⟩

/-- The driver is alive and holds its target. Another process, which was granted nothing,
stops the cycle and removes the driver's reservation. -/
theorem stop_frees_live_driver :
    stopperEnv.actor ≠ driver ∧ (∀ n, stopperEnv.exited n driver = false) ∧
      driven.reservations = [reservationOf drivenCycle driver] ∧
      (∃ snapshot, (revokeCycle sampleCodec stopperEnv 0 6).answer driven = .ok snapshot) ∧
      ((revokeCycle sampleCodec stopperEnv 0 6).final driven).reservations = [] :=
  ⟨by decide, fun _ => rfl, rfl, ⟨_, rfl⟩, rfl⟩

end MacWorker.Integration
