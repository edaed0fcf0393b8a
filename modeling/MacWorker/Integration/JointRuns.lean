import MacWorker.Integration.OwnerAgreement
import MacWorker.Integration.WonStop

/-! # The owner and its host together

A fresh cycle, driven and stopped any number of times, with any answers from Git, lost
replies and crashes of the owner. The owner calls a candidate of the host inconsistent
exactly when it is older than the attempt that the owner counts. That does happen: the
owner counts an attempt when a push finds the target moved, while the host numbers a
candidate only for a target that is not its last one's. -/
namespace MacWorker.Integration
open Fallible Durable Relation

/-- The owner drives or stops its cycle, and may be cut off anywhere. -/
inductive JointStep (codec : Codec) (oracles : HostOracle → Prop) (w : OwnerWorld HostState) :
    OwnerWorld HostState → Prop
  | drive {env : OwnerEnv HostState} {depth : Nat} {t : OwnerWorld HostState}
      (henv : HonestHost codec oracles env) (ht : t ∈ (driveCycle codec env depth).exposed w) :
    JointStep codec oracles w t
  | stop {env : OwnerEnv HostState} {depth expected : Nat} {t : OwnerWorld HostState}
      (henv : HonestHost codec oracles env)
      (ht : t ∈ (revokeCycle codec env depth expected).exposed w) :
    JointStep codec oracles w t

/-- The owner starts an epoch that the host has not heard of. -/
structure FreshCycle (k : CycleEpoch) (w : OwnerWorld HostState) : Prop where
  record : ∃ r, w.record = some r ∧ r.InEpoch k ∧ r.candidates = [] ∧ r.snapshot.attempts = 0
  host : w.host.candidatesIn k = none
  offers : w.offers = []

section
variable {codec : Codec} {oracles : HostOracle → Prop} {k : CycleEpoch}
  {w₀ w t : OwnerWorld HostState}

theorem FreshCycle.joint (h : FreshCycle k w) : Joint oracles k w := by
  obtain ⟨r, hr, hep, hca, ha⟩ := h.record
  refine ⟨?_, ?_, ?_, ?_⟩
  · intro r' hr'
    cases hr.symm.trans hr'
    refine ⟨hep, ?_, ?_⟩ <;>
    · intro c hc
      rw [hca] at hc
      cases hc
  · intro r' hr'
    cases hr.symm.trans hr'
    rw [ha]
    exact Nat.zero_le _
  · intro r hr hid hep
    cases h.host.symm.trans (candidatesIn_of hr hid hep)
  · intro offer hof
    rw [h.offers] at hof
    cases hof

theorem JointStep.joint (hc : ContentAddressed oracles) (h : Joint oracles k w)
    (hs : JointStep codec oracles w t) : Joint oracles k t := by
  cases hs with
  | drive hen ht => exact (stays_driveCycle hc hen _ h).exposed h t ht
  | stop hen ht => exact (stays_revokeCycle hc hen _ _ h).exposed h t ht

/-- **Where owner and host disagree.** Over every run of a fresh cycle, a candidate that
the host answers with is refused as inconsistent exactly when its number is below the
attempts that the owner has counted; and the owner never counts more than there can be
candidates. -/
theorem candidate_refused_iff_older (hcontent : ContentAddressed oracles)
    (hstart : FreshCycle k w₀) (hrun : ReflTransGen (JointStep codec oracles) w₀ w) :
    (∀ offer ∈ w.offers, offer.refused = true ↔ offer.candidate.id.attempt < offer.attempts) ∧
      ∀ r, w.record = some r → r.snapshot.attempts ≤ maxCandidates := by
  have hj : Joint oracles k w :=
    Reach.invariant (fun _ _ => JointStep.joint hcontent) hstart.joint hrun
  exact ⟨hj.offers, hj.attempts⟩

end

/-! ## A target that moves away and returns -/

def sampleEpoch : CycleEpoch := ⟨⟨⟨7⟩, ⟨1⟩, sourceHead, sampleKey⟩, 0, sourceHead, ⟨"n", "e"⟩⟩

/-- An owner whose host runs every request to its end with the sample's Git. The target
is at one place whenever it is fetched, and at another when it is pushed to. -/
def honestEnv : OwnerEnv HostState :=
  { wonEnv with host := fun _ request s =>
      ((execute sampleCodec sampleGit request).final s,
        (execute sampleCodec sampleGit request).answer s) }

def jointStart : OwnerWorld HostState where
  task := ⟨7⟩
  clock := 0
  policy := some samplePolicy
  record := some (sampleRecord 0 1)
  prepared _ := none
  reservations := []
  host := sampleHost
  offers := []

def drives : Nat → OwnerWorld HostState
  | 0 => jointStart
  | n + 1 => (driveCycle sampleCodec honestEnv 0).final (drives n)

/-- What the newest offer was numbered, the attempts counted then, and whether it was
refused. -/
def lastOffer (w : OwnerWorld HostState) : Option (Nat × Nat × Bool) :=
  w.offers.head?.map fun offer => (offer.candidate.id.attempt, offer.attempts, offer.refused)

theorem sampleGit_contentAddressed : ContentAddressed (· = sampleGit) where
  merges := by
    rintro git git' rfl rfl c c' tree tree' paths paths' - hm hm'
    cases hm
    cases hm'
    rfl
  commits := by
    rintro git git' rfl rfl c c' oid oid' - - hoi ho'
    cases hoi
    cases ho'
    rfl

theorem honestEnv_honest : HonestHost sampleCodec (· = sampleGit) honestEnv :=
  fun _ _ _ => .replied rfl .refl

theorem drives_run (n : Nat) :
    ReflTransGen (JointStep sampleCodec (· = sampleGit)) jointStart (drives n) := by
  induction n with
  | zero => exact .refl
  | succ n ih => exact ih.tail (.drive honestEnv_honest (Prog.final_mem_exposed _ _))

theorem jointStart_fresh : FreshCycle sampleEpoch jointStart :=
  ⟨⟨sampleRecord 0 1, rfl, ⟨rfl, rfl, rfl, rfl⟩, rfl, rfl⟩, rfl, rfl⟩

theorem candidate_refused_iff_older_drives : FreshCycle sampleEpoch jointStart ∧
      (∀ offer ∈ (drives 2).offers,
        offer.refused = true ↔ offer.candidate.id.attempt < offer.attempts) ∧
      ∀ r, (drives 2).record = some r → r.snapshot.attempts ≤ maxCandidates :=
  ⟨jointStart_fresh,
    candidate_refused_iff_older sampleGit_contentAddressed jointStart_fresh (drives_run 2)⟩

/-- The first drive records the candidate, the second finds the target moved as it
pushes, and the third finds the target where it was: the host answers with the candidate
it has, and the owner fails. -/
theorem returned_target_refused : FreshCycle sampleEpoch jointStart ∧
      ReflTransGen (JointStep sampleCodec (· = sampleGit)) jointStart (drives 3) ∧
      lastOffer (drives 1) = some (1, 1, false) ∧
      (drives 2).record.map (·.snapshot.attempts) = some 2 ∧
      (driveCycle sampleCodec honestEnv 0).answer (drives 2) = .error invalid ∧
      lastOffer (drives 3) = some (1, 2, true) :=
  ⟨jointStart_fresh, drives_run 3, rfl, rfl, rfl, rfl⟩

/-- **The owner holds nothing that its host does not.** Over every run of a fresh cycle, each
candidate of the owner's record is a stage of the candidate that the host has under the same
number, and a merge in it is the commit that Git made of that candidate. -/
theorem owner_candidates_known (hcontent : ContentAddressed oracles) (hstart : FreshCycle k w₀)
    (hrun : ReflTransGen (JointStep codec oracles) w₀ w) {r c} (hr : w.record = some r)
    (hc : c ∈ r.candidates) :
    ∃ l i c', w.host.candidatesIn k = some l ∧ l[i]? = some c' ∧ c.complete c' = c' ∧
      c.id = ⟨k.id, k.epoch, i + 1⟩ ∧ i < r.snapshot.attempts ∧
      ∀ oid, c.mergeOid = some oid → c'.FromCommit oracles oid := by
  have hj : Joint oracles k w :=
    Reach.invariant (fun _ _ => JointStep.joint hcontent) hstart.joint hrun
  obtain ⟨-, ha, hk⟩ := hj.record r hr
  obtain ⟨l, hl, c', hc', hkn⟩ := hk c hc
  obtain ⟨i, hi⟩ := List.getElem?_of_mem hc'
  have hs := hj.host.candidates hl i c' hi
  obtain ⟨hin, -, -, hm⟩ := IntegrationCandidate.complete_eq_iff.mp hkn.complete
  have hid : c.id = ⟨k.id, k.epoch, i + 1⟩ := by
    rw [← hs.id, hin]
  refine ⟨l, i, c', hl, hi, hkn.complete, hid, ?_, fun oid hoi => hs.committed oid (hm oid hoi)⟩
  have := ha c hc
  rwa [hid] at this

/-- After the first drive the owner has a candidate, so the host has one. -/
theorem owner_candidates_known_drives :
    ((drives 1).host.candidatesIn sampleEpoch).isSome = true := by
  obtain ⟨l, i, c', hl, -⟩ := owner_candidates_known sampleGit_contentAddressed jointStart_fresh
    (drives_run 1) rfl List.mem_cons_self
  rw [hl]
  rfl

end MacWorker.Integration
