import MacWorker.Integration.HostRuns

/-! # Only verified merges are pushed

The mark of a verification is one field of the record, carried across
candidates, targets and epochs. It is tied to the last candidate by the
invariant below: where it reports a verification, the host took over an
auxiliary turn of that very candidate. -/
namespace MacWorker.Integration
open Fallible Durable Relation List
open Dag (IntegrationStatus IntegrationCode)

variable (codec : Codec)

/-- The auxiliary turns of one epoch have distinct ids. -/
def Codec.Separates : Prop :=
  ∀ id epoch attempt purpose ordinal attempt' purpose' ordinal' turn,
    auxiliaryTurnId codec id epoch attempt purpose ordinal = .ok turn →
    auxiliaryTurnId codec id epoch attempt' purpose' ordinal' = .ok turn →
    attempt = attempt' ∧ purpose = purpose' ∧ ordinal = ordinal'

/-- An auxiliary turn of the candidate's own attempt ended done with passing checks, and
the target had not moved from the candidate's. -/
structure Acceptance.Sound (a : Acceptance) : Prop where
  attempt : a.auxiliary.attempt = a.candidate.id.attempt
  finished : a.auxiliary.accepted = true ∧ a.auxiliary.completed = true
  turn : a.prepared.followup.turnId = a.auxiliary.turnId
  outcome : a.status.lastOutcome = some .done
  last : ∃ last, a.status.turns.getLast? = some last ∧ last.turnId = a.auxiliary.turnId ∧
    last.terminal = some .succeeded
  noneBad : ∀ check ∈ a.sourceChecks ++ a.status.reportedChecks, check.status.bad = false
  passed : a.sourceChecks = [] ∨ (a.status.reportedChecks ≠ [] ∧
    ∀ check ∈ a.status.reportedChecks, check.status = .pass)
  target : a.observedTarget = a.candidate.targetHead
  /-- The preparation of the turn names the candidate, unless turn ids collide. -/
  prepared : codec.Separates → a.prepared.workspaceBinding.candidate = a.candidate.id

/-- What entitles the host to push a candidate. -/
structure PushAttempt.Justified (p : PushAttempt) (accepts : List Acceptance) : Prop where
  justified : ∃ r, p.stored = some r ∧ r.candidates.getLast? = some p.candidate ∧
    r.pushIntent.isSome ∧ (∀ check ∈ r.sourceChecks, check.status.bad = false) ∧
    ((p.candidate.conflictPaths = [] ∧ (r.policy.verify = .never ∨
        p.candidate.targetHead = r.cycleBase ∨
        ∃ tree, p.candidate.treeOid = some tree ∧ p.sourceTree = .ok tree.value)) ∨
      ∃ a ∈ accepts, a.Sound codec ∧ a.candidate.Refines p.candidate)

/-- The last candidate of a record, where its mark reports a verification, is one an
auxiliary turn was accepted for. -/
def IntegrationRecord.MarkSound (accepts : List Acceptance) (r : IntegrationRecord) : Prop :=
  r.snapshot.verification.reported = true → ∃ c, r.candidates.getLast? = some c ∧
    ∃ a ∈ accepts, a.candidate.Refines c

structure HostState.Verified (s : HostState) : Prop where
  accepts : ∀ a ∈ s.accepts, a.Sound codec
  mark : ∀ r, s.record = some r → r.MarkSound s.accepts
  pushes : ∀ p ∈ s.pushes, p.Justified codec s.accepts

/-! ## What each write keeps -/

section
variable {codec} {git : HostOracle} {request : HostIntegrationRequest} {s t : HostState}
  {r r' : IntegrationRecord} {accepts : List Acceptance}

theorem validateChecks_ok {source auxiliary} (h : validateChecks source auxiliary = .ok ()) :
    (∀ check ∈ source ++ auxiliary, check.status.bad = false) ∧
      (source = [] ∨ (auxiliary ≠ [] ∧ ∀ check ∈ auxiliary, check.status = .pass)) := by
  obtain ⟨hb, hr⟩ := of_then h
  refine ⟨?_, ?_⟩
  · have := ensure_eq_ok.mp hb
    intro check hc
    have hn := any_eq_false.mp this check hc
    simpa using hn
  · have := ensure_eq_ok.mp hr
    simpa [all_eq_true] using this

theorem PreparedIntegrationTurn.validate_ok {p : PreparedIntegrationTurn}
    (h : p.validate codec = .ok ()) :
    p.workspaceBinding.candidate = ⟨p.integrationId, p.epoch, p.attempt⟩ ∧
      auxiliaryTurnId codec p.integrationId p.epoch p.attempt p.purpose p.ordinal =
        .ok p.followup.turnId := by
  obtain ⟨-, h⟩ := of_then h
  obtain ⟨-, h⟩ := of_then h
  obtain ⟨hs, h⟩ := of_then h
  obtain ⟨turn, ht, h⟩ := of_bind h
  obtain ⟨hf, -⟩ := of_then h
  have hc := (ensure_eq_ok.mp hs).2.2.2.2.1
  have hn := (ensure_eq_ok.mp hf).1
  exact ⟨hc, hn ▸ ht⟩

variable {c : IntegrationCandidate} {aux : IntegrationAuxiliaryIntent}

theorem IntegrationAuxiliaryIntent.validate_ok (h : aux.validate codec = .ok ()) :
    auxiliaryTurnId codec aux.integrationId aux.epoch aux.attempt aux.purpose aux.ordinal =
      .ok aux.turnId := by
  obtain ⟨turn, ht, h⟩ := of_bind h
  obtain ⟨hn, -⟩ := of_then h
  exact (ensure_eq_ok.mp hn).1 ▸ ht

theorem acceptedAuxiliary_some (h : acceptedAuxiliary r c = some aux) :
    aux ∈ r.auxiliaries ∧ aux.attempt = c.id.attempt ∧ aux.accepted = true ∧
      aux.completed = true := by
  have hm := mem_of_find?_eq_some h
  have ht := find?_some h
  simp only [Bool.and_eq_true, beq_iff_eq] at ht
  exact ⟨mem_reverse.mp hm, ht.1.1, ht.2, ht.1.2⟩

theorem acceptable_prepared {prepared : PreparedIntegrationTurn} (hs : codec.Separates)
    (hl : r.candidates.getLast? = some c) (hau : acceptedAuxiliary r c = some aux)
    (hpr : prepared.validateFor codec r = .ok ())
    (ht : prepared.followup.turnId = aux.turnId) :
    prepared.workspaceBinding.candidate = c.id := by
  obtain ⟨hp, h⟩ := of_then hpr
  obtain ⟨hr, h⟩ := of_then h
  obtain ⟨hc, -⟩ := of_then h
  obtain ⟨hid, hep, -⟩ := ensure_eq_ok.mp hc
  have hv := (IntegrationRecord.validate_eq_ok codec).mp hr
  obtain ⟨hca, hn⟩ := PreparedIntegrationTurn.validate_ok hp
  obtain ⟨hm, ha, -⟩ := acceptedAuxiliary_some hau
  obtain ⟨hau, hai, hae⟩ := hv.auxiliaries aux hm
  obtain ⟨-, hci, hce, -⟩ := hv.candidates c (mem_of_getLast? hl)
  have hsa : prepared.attempt = aux.attempt := by
    have han := IntegrationAuxiliaryIntent.validate_ok hau
    rw [hai, hae, ← ht] at han
    rw [hid, hep] at hn
    exact (hs _ _ _ _ _ _ _ _ _ hn han).1
  rw [hca, hid, hep, hsa, ha, ← hci, ← hce]

theorem acceptance_sound {prepared : PreparedIntegrationTurn} {status : HostTaskStatus}
    (hl : r.candidates.getLast? = some c) (hau : acceptedAuxiliary r c = some aux)
    (h : acceptable codec r aux prepared status = .ok ()) :
    Acceptance.Sound codec ⟨c, aux, prepared, status, r.sourceChecks, c.targetHead⟩ := by
  obtain ⟨hp, h⟩ := of_then h
  obtain ⟨_, -, h⟩ := of_bind h
  obtain ⟨hen, hc⟩ := of_then h
  obtain ⟨-, ht, hlt, hd⟩ := ensure_eq_ok.mp hen
  obtain ⟨hb, hpa⟩ := validateChecks_ok hc
  obtain ⟨-, ha, hac, hco⟩ := acceptedAuxiliary_some hau
  constructor
  · exact ha
  · exact ⟨hac, hco⟩
  · exact ht
  · exact hd
  · simpa [Option.any_eq_true] using hlt
  · exact hb
  · exact hpa
  · rfl
  · intro hs
    exact acceptable_prepared hs hl hau hp ht

theorem IntegrationRecord.MarkSound.mono {more} (h : r.MarkSound accepts) (hs : accepts ⊆ more) :
    r.MarkSound more := by
  intro hr
  obtain ⟨c, hl, a, ha, hf⟩ := h hr
  exact ⟨c, hl, a, hs ha, hf⟩

theorem PushAttempt.Justified.mono {p : PushAttempt} {more : List Acceptance}
    (h : p.Justified codec accepts) (hsu : accepts ⊆ more) : p.Justified codec more := by
  obtain ⟨r, hs, hl, hin, hc, hw⟩ := h.justified
  refine ⟨r, hs, hl, hin, hc, hw.imp_right ?_⟩
  rintro ⟨a, ha, hso, hf⟩
  exact ⟨a, hsu ha, hso, hf⟩

theorem MarkSound.of_unreported (h : r.snapshot.verification = .sourceAgentReportOnly) :
    r.MarkSound accepts := by
  intro hr
  rw [h] at hr
  cases hr

theorem MarkSound.of_same (h : r.MarkSound accepts) (hc : r'.candidates = r.candidates)
    (hm : r'.snapshot.verification = r.snapshot.verification) : r'.MarkSound accepts := by
  unfold IntegrationRecord.MarkSound
  rw [hc, hm]
  exact h

theorem MarkSound.of_advances (h : r.MarkSound accepts) (had : r.Advances git r') :
    r'.MarkSound accepts := by
  cases had with
  | kept hca hm =>
    rcases hm with hm | hm
    · exact of_same h hca hm
    · exact of_unreported hm
  | @refined before c c' hol hn hre hm =>
    intro hr
    obtain ⟨c₀, hl, a, ha, hf⟩ := h (hm ▸ hr)
    have hc : c₀ = c := by simpa [hol] using hl.symm
    refine ⟨c', by simp [hn], a, ha, ?_⟩
    exact (hc ▸ hf).trans hre.toRefines
  | appended hn hm =>
    rcases hm with hm | ⟨hem, hm⟩
    · exact of_unreported hm
    · intro hr
      obtain ⟨c₀, hl, -⟩ := h (hm ▸ hr)
      rw [hem] at hl
      cases hl

theorem MarkSound.of_succession {record next step}
    (h : ∀ r, s.record = some r → r.MarkSound accepts) (hs : Succession record step s.record next) :
    next.MarkSound accepts := by
  cases hst : s.record with
  | none =>
    rw [hst] at hs
    cases hs with
    | first _ _ hm _ => exact of_unreported hm
  | some old =>
    rw [hst] at hs
    cases hs with
    | continued _ _ _ _ _ _ hc hm _ => exact of_same (h old hst) hc hm
    | succeeded _ _ _ _ _ _ hm _ => exact of_unreported hm

theorem MarkSound.of_recordWrite (h : ∀ r, s.record = some r → r.MarkSound s.accepts)
    (hw : RecordWrite codec git request s r') : r'.MarkSound s.accepts := by
  cases hw with
  | stop _ _ _ hr _ _ hc hm => exact of_same (h _ hr) hc hm
  | start _ _ hs =>
    exact of_same (of_succession h (succeed_ok hs)) (refresh_candidates _) (refresh_verification _)
  | work hr _ _ had => exact of_advances (h _ hr) had
  | @verify r _ before c c' a hr _ _ hol hn hre ha hf hm =>
    intro _
    exact ⟨c', by simp [hn], a, ha, hf.trans hre.toRefines⟩

theorem needsVerification_false (h : needsVerification git r c = .ok false)
    (hm : r.snapshot.verification.reported = false) :
    r.policy.verify = .never ∨ c.targetHead = r.cycleBase ∨
      ∃ tree, c.treeOid = some tree ∧ git.tree c.sourceHead = .ok tree.value := by
  unfold needsVerification at h
  split at h
  · obtain ⟨source, hs, h⟩ := of_bind h
    cases ht : c.treeOid with
    | none =>
      rw [ht] at h
      cases h
    | some tree =>
      rw [ht] at h
      have heq : source = tree.value := by simpa using h
      exact .inr (.inr ⟨tree, rfl, heq ▸ hs⟩)
  · rename_i hc
    by_cases hn : r.policy.verify = .never
    · exact .inl hn
    · have hmo : r.policy.verify = .movedTarget := by
        cases hv : r.policy.verify with
        | never => exact absurd hv hn
        | movedTarget => rfl
      by_cases hta : c.targetHead = r.cycleBase
      · exact .inr (.inl hta)
      · exact absurd ⟨hmo, hm, hta⟩ hc

theorem push_justified (h : s.Verified codec) (hr : s.record = some r)
    (hl : r.candidates.getLast? = some c) (hin : r.pushIntent.isSome)
    (hs : validateSourceChecks r.sourceChecks = .ok ())
    (hc : c.conflictPaths = [] ∨ r.snapshot.verification = .resolveAgentReport)
    (hv : needsVerification git r c = .ok false) :
    PushAttempt.Justified codec ⟨s.record, c, git.tree c.sourceHead⟩ s.accepts := by
  refine ⟨r, hr, hl, hin, ?_, ?_⟩
  · have hb := ensure_eq_ok.mp hs
    simpa using hb
  · by_cases hm : r.snapshot.verification.reported = true
    · obtain ⟨c₀, hl₀, a, ha, hf⟩ := h.mark r hr hm
      cases hl.symm.trans hl₀
      exact .inr ⟨a, ha, h.accepts a ha, hf⟩
    · have hm : r.snapshot.verification.reported = false := by simpa using hm
      refine .inl ⟨?_, needsVerification_false hv hm⟩
      rcases hc with hn | hre
      · exact hn
      · rw [hre] at hm
        cases hm

/-- **What one write preserves.** -/
theorem HostState.Verified.write (h : s.Verified codec) (hw : HostWrite codec git request s t) :
    t.Verified codec := by
  cases hw with
  | arm => exact ⟨h.accepts, h.mark, h.pushes⟩
  | evidence => exact ⟨h.accepts, h.mark, h.pushes⟩
  | head => exact ⟨h.accepts, h.mark, h.pushes⟩
  | save hva hw =>
    refine ⟨h.accepts, ?_, h.pushes⟩
    intro r hr
    cases hr
    exact MarkSound.of_recordWrite (s := s) h.mark hw
  | accept hr hl hau hpr hac ht =>
    refine ⟨?_, ?_, ?_⟩
    · intro a ha
      rcases mem_cons.mp ha with rfl | ha
      · exact acceptance_sound hl hau hac
      · exact h.accepts a ha
    · intro r' hr'
      exact (h.mark r' hr').mono (subset_cons_self _ _)
    · intro p hp
      exact (h.pushes p hp).mono (subset_cons_self _ _)
  | push _ _ hr _ _ hl hin hs hc hv =>
    refine ⟨h.accepts, h.mark, ?_⟩
    intro p hp
    rcases mem_cons.mp hp with rfl | hp
    · exact push_justified h hr hl hin hs hc hv
    · exact h.pushes p hp

theorem HostState.Fresh.verified (h : s.Fresh) : s.Verified codec := by
  constructor
  · simp [h.accepts]
  · simp [h.record]
  · simp [h.pushes]

end

/-- **Only verified merges are pushed.** In every run, whatever requests arrive, wherever
they are cut off and whatever Git answers, every push that reached Git was of the last
candidate of the stored record, with its intent stored, from a source without a failed
check; and it needed no verification, or a turn of that very candidate was accepted. -/
theorem only_verified_pushed {s₀ s : HostState} (hfresh : s₀.Fresh)
    (hrun : HostRun codec (fun _ => True) TaskMove s₀ s) :
    ∀ p ∈ s.pushes, p.Justified codec s.accepts := by
  have hv : s.Verified codec := by
    refine HostRun.invariant ?_ ?_ hfresh.verified hrun
    · intro git request a b _ ha hw
      exact ha.write hw
    · intro a b ha hm
      cases hm with
      | mk status live prepared => exact ⟨ha.accepts, ha.mark, ha.pushes⟩
  exact hv.pushes

theorem auxiliaryTurnId_ok {id epoch attempt ordinal purpose turn}
    (h : auxiliaryTurnId codec id epoch attempt purpose ordinal = .ok turn) :
    attempt ≤ 3 ∧ ordinal ≤ 3 ∧ turn = codec.turnDigest id epoch attempt purpose ordinal := by
  cases purpose <;>
  · simp only [auxiliaryTurnId] at h
    obtain ⟨hr, h⟩ := of_unless h
    simp only [maxCandidates, maxResolveTurns, maxVerifyTurns] at hr
    exact ⟨by omega, by omega, (Except.ok.inj h).symm⟩

theorem sampleCodec_separates : sampleCodec.Separates := by
  intro id epoch attempt purpose ordinal attempt' purpose' ordinal' turn h h'
  obtain ⟨ha, ho, rfl⟩ := auxiliaryTurnId_ok _ h
  obtain ⟨ha', ho', heq⟩ := auxiliaryTurnId_ok _ h'
  have hv := congrArg (fun t : TurnId => t.uuid.toNat) heq
  cases purpose <;> cases purpose' <;>
  · simp only [sampleCodec, BitVec.toNat_ofNat] at hv
    rw [Nat.mod_eq_of_lt (by simp; omega), Nat.mod_eq_of_lt (by simp; omega)] at hv
    simp at hv ⊢
    omega

/-- The turn that looks at the first candidate. -/
def verifyTurn : PreparedIntegrationTurn :=
  let id := (sampleRecord 0 0).snapshot.integrationId
  ⟨id, 0, 1, .verify, 1, ⟨⟨7⟩, ⟨1013⟩, sourceHead, 6, "", ⟨1, none, none⟩⟩,
    ⟨⟨7⟩, ⟨id, 0, 1⟩, .forTask ⟨7⟩, sourceHead, secondTarget, sourceHead, sourceHead, secondTarget,
      some mergedTree, ⟨.forTask ⟨7⟩, sourceHead, []⟩⟩, ⟨1, none, none⟩⟩

def verifyStep (step : IntegrationStep) (revision : Nat) (aux : List IntegrationAuxiliaryIntent)
    (s : HostState) : HostState :=
  (execute sampleCodec movedGit (sampleRequest 0 revision (.step step
    { sampleRecord 0 revision with
      policy := { samplePolicy with verify := .movedTarget }
      auxiliaries := aux }))).final s

/-- The target has moved, and the turn for the candidate is over. -/
def verifyingHost : HostState :=
  let s := verifyStep .fetch 1 [] sampleHost
  { s with
    status := ⟨⟨.open, some .done, some sourceHead, [⟨⟨1⟩, some .succeeded, some .done⟩,
      ⟨⟨1013⟩, some .succeeded, some .done⟩]⟩, []⟩
    prepared := fun turn => if turn = ⟨1013⟩ then some verifyTurn else none }

def verified : List IntegrationAuxiliaryIntent :=
  [⟨⟨1013⟩, verifyTurn.integrationId, 0, 1, .verify, 1, sampleProject, 6, some 1, true, true⟩]

theorem only_verified_pushed_sample : sampleCodec.Separates ∧
    ∃ s, HostRun sampleCodec (fun _ => True) TaskMove sampleHost s ∧
      s.pushes.length = 1 ∧ s.accepts.length = 1 ∧
      ∀ p ∈ s.pushes, p.Justified sampleCodec s.accepts := by
  have hv : HostRun sampleCodec (fun _ => True) TaskMove sampleHost verifyingHost :=
    (ReflTransGen.single (.completed movedGit trivial)).tail (.task (.mk _ _ _))
  have hr : HostRun sampleCodec (fun _ => True) TaskMove sampleHost
      (verifyStep .push 3 verified (verifyStep .acceptTurn 2 verified verifyingHost)) :=
    (hv.tail (.completed movedGit trivial)).tail (.completed movedGit trivial)
  exact ⟨sampleCodec_separates, _, hr, by decide +kernel, by decide +kernel,
    only_verified_pushed sampleCodec ⟨rfl, rfl, rfl, rfl, rfl⟩ hr⟩

end MacWorker.Integration
