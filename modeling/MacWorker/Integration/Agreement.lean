import MacWorker.Integration.HostCandidates
import MacWorker.Integration.HostRuns
import MacWorker.Integration.OwnerSaves

/-! # What the owner and the host agree on

The owner keeps its own list of candidates and count of attempts. It takes candidates over
from answers, and counts an attempt when the host says that the target has moved. The host
numbers a candidate when it makes one. Every candidate that the owner has is one of the
host's at an earlier stage, so the owner can only object to a candidate that is older than
the attempt it counts. -/
namespace MacWorker.Integration
open Fallible Durable Relation List

/-! ## A candidate at an earlier stage -/

namespace IntegrationCandidate
variable {c c' : IntegrationCandidate}

theorem complete_eq_iff : c.complete c' = c' ↔
    c.SameInputs c' ∧ c'.conflictPaths = c.conflictPaths ∧
      (∀ tree, c.treeOid = some tree → c'.treeOid = some tree) ∧
      (∀ oid, c.mergeOid = some oid → c'.mergeOid = some oid) := by
  constructor
  · intro h
    have hin : c.SameInputs (c.complete c') := rfl
    have hp : (c.complete c').conflictPaths = c.conflictPaths := rfl
    have ht : (c.complete c').treeOid = c.treeOid.or c'.treeOid := rfl
    have hm : (c.complete c').mergeOid = c.mergeOid.or c'.mergeOid := rfl
    rw [h] at hin hp ht hm
    refine ⟨hin, hp, ?_, ?_⟩
    · intro tree hc
      rw [ht, hc]
      rfl
    · intro oid hc
      rw [hm, hc]
      rfl
  · rintro ⟨hin, hp, ht, hm⟩
    have hor : ∀ a b : Option BaseOid, (∀ x, a = some x → b = some x) → a.or b = b := by
      intro a b h
      cases a with
      | none => rfl
      | some x => rw [h x rfl]; rfl
    refine Eq.trans ?_ (show c' = _ from hin).symm
    unfold complete
    rw [hp, hor _ _ ht, hor _ _ hm]

end IntegrationCandidate

section
variable {oracles : HostOracle → Prop} {k : CycleEpoch} {c c' c'' : IntegrationCandidate}
  {r r' : IntegrationRecord} {s t : HostState} {before : List IntegrationCandidate}

/-- The owner's candidate is an earlier stage of the host's. -/
structure Known (oracles : HostOracle → Prop) (c c' : IntegrationCandidate) : Prop where
  complete : c.complete c' = c'
  merged : c.mergeOid = none → c.FromMerge oracles

theorem Known.grow (hco : ContentAddressed oracles) (h : Known oracles c c')
    (hg : c'.Grows oracles c'') : Known oracles c c'' := by
  obtain ⟨hin, hp, ht, hm⟩ := IntegrationCandidate.complete_eq_iff.mp h.complete
  have hi' := hin.trans hg.inputs
  refine ⟨IntegrationCandidate.complete_eq_iff.mpr ⟨hi', ?_, ?_, ?_⟩, h.merged⟩
  · rcases hg.paths with hsa | ⟨hn, git', c₁', tree', hg', hs', hm'⟩
    · exact hsa.trans hp
    · have hn' : c.mergeOid = none := by
        cases hoi : c.mergeOid with
        | none => rfl
        | some oid =>
          rw [hm oid hoi] at hn
          cases hn
      obtain ⟨git, c₁, tree, hgi, hsa, hm⟩ := h.merged hn'
      exact hco.merges _ _ hg' hgi _ _ _ _ _ _ (hs'.trans (hi'.symm.trans hsa.symm)) hm' hm
  · exact fun tree hc => hg.tree tree (ht tree hc)
  · exact fun oid hc => hg.merge oid (hm oid hc)

/-! ## The owner's record -/

/-- What the owner's record says of this epoch holds of the host. -/
structure Agrees (oracles : HostOracle → Prop) (k : CycleEpoch) (r : IntegrationRecord)
    (s : HostState) : Prop where
  inEpoch : r.InEpoch k
  attempts : ∀ c ∈ r.candidates, c.id.attempt ≤ r.snapshot.attempts
  known : ∀ c ∈ r.candidates, ∃ l, s.candidatesIn k = some l ∧ ∃ c' ∈ l, Known oracles c c'

theorem Agrees.follows (hco : ContentAddressed oracles) (h : Agrees oracles k r s)
    (hf : Follows oracles k s t) : Agrees oracles k r t := by
  refine ⟨h.inEpoch, h.attempts, ?_⟩
  intro c hc
  obtain ⟨l, hl, c', hc', hk⟩ := h.known c hc
  obtain ⟨l', hl', hg⟩ := hf.grown l hl
  obtain ⟨c'', hc'', hgr⟩ := hg c' hc'
  exact ⟨l', hl', c'', hc'', hk.grow hco hgr⟩

def IntegrationRecord.core (r : IntegrationRecord) :
    IntegrationId × Nat × BaseOid × GitIdentity × Nat × List IntegrationCandidate :=
  (r.snapshot.integrationId, r.snapshot.epoch, r.snapshot.sourceHead, r.gitIdentity,
    r.snapshot.attempts, r.candidates)

section
variable (h : Agrees oracles k r s)
include h

theorem Agrees.same (hc : r'.core = r.core) : Agrees oracles k r' s := by
  simp only [IntegrationRecord.core, Prod.mk.injEq] at hc
  obtain ⟨hid, hep, hso, hin, ha, hca⟩ := hc
  refine ⟨⟨?_, ?_, ?_, ?_⟩, ?_, ?_⟩
  · rw [hid]; exact h.inEpoch.id
  · rw [hep]; exact h.inEpoch.epoch
  · rw [hso]; exact h.inEpoch.source
  · rw [hin]; exact h.inEpoch.identity
  · rw [ha, hca]; exact h.attempts
  · rw [hca]; exact h.known

theorem Agrees.invalidate {attempt} (hle : r.snapshot.attempts ≤ attempt) :
    Agrees oracles k (invalidateCandidate r attempt) s :=
  ⟨{ h.inEpoch with }, fun c hc => (h.attempts c hc).trans hle, h.known⟩

/-- A record about candidates is only sent to a host that has them. -/
theorem Agrees.steps (step : IntegrationStep) : StepsIn k (stepRequest r step) s := by
  intro step' record ha
  cases ha
  refine ⟨h.inEpoch, ?_⟩
  intro hn
  refine eq_nil_iff_forall_not_mem.mpr ?_
  intro c hc
  obtain ⟨l, hl, -⟩ := h.known c hc
  cases hn.symm.trans hl

/-! ## Taking a candidate over -/

theorem Agrees.sound (hs : SoundHost oracles k s) (hc : c ∈ r.candidates) :
    c.id.integrationId = k.id ∧ c.id.epoch = k.epoch := by
  obtain ⟨l, hl, c', hc', hk⟩ := h.known c hc
  obtain ⟨i, hi⟩ := getElem?_of_mem hc'
  have hin := (IntegrationCandidate.complete_eq_iff.mp hk.complete).1
  have hid : c'.id = c.id := by rw [hin]
  rw [← hid, (hs.candidates hl i c' hi).id]
  exact ⟨rfl, rfl⟩

theorem Agrees.known_last (hs : SoundHost oracles k s)
    (hlast : s.candidatesIn k = some (before ++ [c])) (hc' : c' ∈ r.candidates)
    (hid : c'.id = c.id) : Known oracles c' c := by
  obtain ⟨l, hl, x, hx, hk⟩ := h.known c' hc'
  obtain ⟨i, hi⟩ := getElem?_of_mem hx
  have hin := (IntegrationCandidate.complete_eq_iff.mp hk.complete).1
  have hxi : x.id = c.id := by rw [hin]; exact hid
  have hxs := (hs.candidates hl i x hi).id
  cases hl.symm.trans hlast
  have hc := (hs.candidates hl).last.id
  rw [hxi, hc] at hxs
  have hi' : i = before.length := by simpa using hxs.symm
  rw [hi', getElem?_concat_length] at hi
  cases hi
  exact hk

end

section
variable (h : Agrees oracles k r s) (hs : SoundHost oracles k s)
  (hlast : s.candidatesIn k = some (before ++ [c]))
include h hs hlast

theorem offered_inEpoch : c.sourceHead = r.snapshot.sourceHead ∧ c.identity = r.gitIdentity ∧
    c.id.integrationId = r.snapshot.integrationId ∧ c.id.epoch = r.snapshot.epoch := by
  have hso := (hs.candidates hlast).last
  refine ⟨?_, ?_, ?_, ?_⟩
  · rw [hso.source, h.inEpoch.source]
  · rw [hso.identity, h.inEpoch.identity]
  · rw [hso.id, h.inEpoch.id]
  · rw [hso.id, h.inEpoch.epoch]

/-- **What the owner objects to.** The only candidate of the host that the owner calls
inconsistent is one older than the attempt it counts. -/
theorem recordCandidate_refuses_iff :
    recordCandidate r c = .error invalid ↔ c.id.attempt < r.snapshot.attempts := by
  unfold recordCandidate
  rw [ensure_of (offered_inEpoch h hs hlast), bind_ok]
  cases hsp : splitFirst (·.id == c.id) r.candidates with
  | some found =>
    obtain ⟨first, old, rest⟩ := found
    obtain ⟨hca, hid⟩ := splitFirst_some hsp
    have hol : old ∈ r.candidates := by simp [hca]
    have hid : old.id = c.id := by simpa using hid
    have hle := h.attempts old hol
    rw [hid] at hle
    dsimp only
    rw [ensure_then_eq_error, ensure_of (h.known_last hs hlast hol hid).complete]
    constructor
    · rintro (⟨hne, -⟩ | ⟨-, hok⟩)
      · omega
      · cases hok
    · exact fun hlt => .inl ⟨hlt.ne, rfl⟩
  | none =>
    -- Within the epoch an attempt has one candidate, so that those known are older.
    have hne : ∀ old ∈ r.candidates, old.id.attempt ≠ c.id.attempt := by
      intro old hol heq
      have hn := splitFirst_none hsp old hol
      obtain ⟨-, -, hid, hep⟩ := offered_inEpoch h hs hlast
      obtain ⟨hid', he'⟩ := h.sound hs hol
      rw [h.inEpoch.id] at hid
      rw [h.inEpoch.epoch] at hep
      cases hol : old.id
      cases hc : c.id
      simp_all
    dsimp only
    rw [ensure_then_eq_error, ensure_then_eq_error]
    constructor
    · rintro (⟨hb, -⟩ | ⟨-, ⟨-, her⟩ | ⟨-, her⟩⟩)
      · by_contra hle
        refine hb ⟨not_lt.mp hle, fun old hol => ?_⟩
        have ha := h.attempts old hol
        have := hne old hol
        omega
      · cases her
      · split at her <;> cases her
    · exact fun hlt => .inl ⟨fun hb => hlt.not_ge hb.1, rfl⟩

omit hs in
theorem recordCandidate_agrees (hm : c.mergeOid = none → c.FromMerge oracles)
    (hok : recordCandidate r c = .ok r') : Agrees oracles k r' s := by
  have hk : Known oracles c c := by
    refine ⟨IntegrationCandidate.complete_eq_iff.mpr ⟨.refl c, rfl, ?_, ?_⟩, hm⟩
    · exact fun _ h => h
    · exact fun _ h => h
  have hse : ∃ l, s.candidatesIn k = some l ∧ ∃ c' ∈ l, Known oracles c c' :=
    ⟨_, hlast, c, by simp, hk⟩
  have hta : ∀ {r₁ : IntegrationRecord}, r₁.InEpoch k →
      r.snapshot.attempts ≤ r₁.snapshot.attempts → c.id.attempt ≤ r₁.snapshot.attempts →
      (∀ x ∈ r₁.candidates, x = c ∨ x ∈ r.candidates) → Agrees oracles k r₁ s := by
    intro r₁ hin hle hc hme
    refine ⟨hin, ?_, ?_⟩
    · intro x hx
      rcases hme x hx with rfl | hx
      · exact hc
      · exact (h.attempts x hx).trans hle
    · intro x hx
      rcases hme x hx with rfl | hx
      · exact hse
      · exact h.known x hx
  have had : ∀ x ∈ r.candidates ++ [c], x = c ∨ x ∈ r.candidates := by
    simp [or_comm]
  unfold recordCandidate at hok
  obtain ⟨-, hok⟩ := of_then hok
  cases hsp : splitFirst (·.id == c.id) r.candidates with
  | some found =>
    obtain ⟨first, old, rest⟩ := found
    rw [hsp] at hok
    obtain ⟨ha, hok⟩ := of_then hok
    obtain ⟨-, hok⟩ := of_then hok
    have ha := ensure_eq_ok.mp ha
    obtain ⟨hc, -⟩ := splitFirst_some hsp
    cases hok
    refine hta { h.inEpoch with } le_rfl ha.le ?_
    intro x hx
    rw [hc]
    simp only [mem_append, mem_cons] at hx ⊢
    tauto
  | none =>
    rw [hsp] at hok
    obtain ⟨hn, hok⟩ := of_then hok
    obtain ⟨-, hok⟩ := of_then hok
    have hle := (ensure_eq_ok.mp hn).1
    split at hok
    · cases hok
      exact hta { h.inEpoch with } hle le_rfl had
    · rename_i hlt
      cases hok
      exact hta { h.inEpoch with } le_rfl (not_lt.mp hlt) had

end

/-! ## Both together -/

/-- The owner's files and the host agree, and so did every answer. -/
structure Joint (oracles : HostOracle → Prop) (k : CycleEpoch) (w : OwnerWorld HostState) :
    Prop where
  record : ∀ r, w.record = some r → Agrees oracles k r w.host
  attempts : ∀ r, w.record = some r → r.snapshot.attempts ≤ maxCandidates
  host : SoundHost oracles k w.host
  offers : ∀ offer ∈ w.offers, offer.refused = true ↔ offer.candidate.id.attempt < offer.attempts

structure Holds (oracles : HostOracle → Prop) (k : CycleEpoch) (w : OwnerWorld HostState)
    (r : IntegrationRecord) : Prop where
  joint : Joint oracles k w
  agrees : Agrees oracles k r w.host

variable {w : OwnerWorld HostState}

section
variable (h : Joint oracles k w)
include h

theorem Joint.tick : Joint oracles k w.tick := { h with }

theorem Joint.holds (hr : w.record = some r) : Holds oracles k w r := ⟨h, h.record r hr⟩

theorem Joint.setReservations (reservations : List TargetReservation) :
    Joint oracles k (w.setReservations reservations) := { h with }

theorem Joint.addPrepared (p : PreparedIntegrationTurn) :
    Joint oracles k (w.addPrepared p) := { h with }

theorem Joint.follows (hc : ContentAddressed oracles)
    (hf : Follows oracles k w.host t) : Joint oracles k (w.setHost t) where
  record r hr := (h.record r hr).follows hc hf
  attempts := h.attempts
  host := hf.sound
  offers := h.offers

end

variable (h : Holds oracles k w r)
include h

theorem Holds.tick : Holds oracles k w.tick r := ⟨h.joint.tick, h.agrees⟩

theorem Holds.setReservations (reservations : List TargetReservation) :
    Holds oracles k (w.setReservations reservations) r :=
  ⟨h.joint.setReservations reservations, h.agrees⟩

theorem Holds.addPrepared (p : PreparedIntegrationTurn) :
    Holds oracles k (w.addPrepared p) r := ⟨h.joint.addPrepared p, h.agrees⟩

theorem Holds.follows (hc : ContentAddressed oracles)
    (hf : Follows oracles k w.host t) : Holds oracles k (w.setHost t) r :=
  ⟨h.joint.follows hc hf, h.agrees.follows hc hf⟩

theorem Holds.same (hc : r'.core = r.core) : Holds oracles k w r' := ⟨h.joint, h.agrees.same hc⟩

theorem Holds.store (ha : r.snapshot.attempts ≤ maxCandidates) :
    Holds oracles k (w.setRecord r) r := by
  refine ⟨⟨?_, ?_, h.joint.host, h.joint.offers⟩, h.agrees⟩
  · intro r' hr'
    cases hr'
    exact h.agrees
  · intro r' hr'
    cases hr'
    exact ha

theorem Holds.offer (hlast : w.host.candidatesIn k = some (before ++ [c])) :
    Joint oracles k (w.logOffer ⟨c, r.snapshot.attempts,
      recordCandidate r c matches .error (.rejected .stateInvalid)⟩) := by
  refine { h.joint with offers := ?_ }
  intro offer hof
  rcases mem_cons.mp hof with rfl | hof
  · rw [← recordCandidate_refuses_iff h.agrees h.joint.host hlast]
    simp only
    split
    · rename_i her
      simp [her, invalid]
    · rename_i hot
      simp only [Bool.false_eq_true, false_iff]
      exact hot
  · exact h.joint.offers offer hof

end

end MacWorker.Integration
