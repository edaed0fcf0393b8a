import MacWorker.Integration.HostRuns

/-! # The epochs of one cycle

Each epoch of a cycle is stopped before the next one begins, and each may or may not have
reached the host. A host that ran a phase of an epoch remembers it in its record; one that
was only asked to stop it, in its evidence. The record decides whether the first step of
the next epoch is taken up, so an epoch that never reached the host leaves a gap that the
check on the record does not bridge. -/
namespace MacWorker.Integration
open Fallible Durable Relation List
open Prog (bind_of_reads require_reads get_reads)
open Dag (IntegrationStatus IntegrationCode)

/-! ## Stored files are readable -/

/-- What is stored passes the checks it is read back with. -/
structure HostState.Readable (codec : Codec) (s : HostState) : Prop where
  record : ∀ r, s.record = some r → r.validate codec = .ok () ∧ r.taskId = s.info.taskId ∧
    r.policy.projectId = s.info.projectId
  evidence : ∀ p, s.evidence = some p → p.validate codec s.info.taskId = .ok ()

section
variable {codec : Codec} {git : HostOracle} {request : HostIntegrationRequest} {s t : HostState}

theorem HostState.Readable.write (h : s.Readable codec)
    (hw : HostWrite codec git request s t) : t.Readable codec := by
  cases hw with
  | arm => exact ⟨h.record, h.evidence⟩
  | accept => exact ⟨h.record, h.evidence⟩
  | push => exact ⟨h.record, h.evidence⟩
  | head => exact ⟨h.record, h.evidence⟩
  | evidence proof ha _ hv ht hpr =>
    refine ⟨h.record, ?_⟩
    intro p hp
    cases hp
    unfold HostRevokeEvidence.validate
    rw [hpr, then_eq_ok, then_eq_ok, ensure_eq_ok, ha]
    exact ⟨hv, ht, rfl⟩
  | save hv hre =>
    refine ⟨?_, h.evidence⟩
    intro r' hr'
    cases hr'
    refine ⟨hv, ?_⟩
    cases hre with
    | stop _ _ _ hr _ hs _ _ =>
      rw [hs.taskId, hs.policy]
      exact (h.record _ hr).2
    | @start step record next _ had hsu =>
      have hs := (succeed_ok hsu).sameSource.trans (refresh_sameCycle next).toSameSource
      rw [hs.taskId, hs.policy]
      exact had.task
    | work hr _ hs _ =>
      rw [hs.taskId, hs.policy]
      exact (h.record _ hr).2
    | verify hr _ hs =>
      rw [hs.taskId, hs.policy]
      exact (h.record _ hr).2

theorem load_reads (h : s.Readable codec) : load codec s = ([], .ok s.record) := by
  cases hr : s.record with
  | none =>
    unfold load
    rw [bind_of_reads (get_reads s), hr]
    rfl
  | some r =>
    obtain ⟨hv, ht⟩ := h.record r hr
    unfold load
    rw [bind_of_reads (get_reads s), hr]
    dsimp only
    rw [bind_of_reads (Prog.lift_reads hv), bind_of_reads (require_reads ht)]
    rfl

theorem revokeEvidence_reads (h : s.Readable codec) :
    revokeEvidence codec s = ([], .ok s.evidence) := by
  cases hp : s.evidence with
  | none =>
    unfold revokeEvidence
    rw [bind_of_reads (get_reads s), hp]
    rfl
  | some p =>
    unfold revokeEvidence
    rw [bind_of_reads (get_reads s), hp]
    dsimp only
    rw [bind_of_reads (Prog.lift_reads (h.evidence p hp))]
    rfl

/-- An open and idle task that stands at the source of the record. -/
structure HostState.ReadyFor (s : HostState) (record : IntegrationRecord) : Prop where
  isOpen : s.status.state = .open
  idle : s.live = false
  head : s.status.headOid = some record.snapshot.sourceHead
  latest : s.latestOrdinarySource = some record.snapshot.sourceTurnId
  identity : record.gitIdentity = s.info.gitIdentity

/-- Where the task is ready and no stop of the epoch is remembered, the stored record
alone decides about a step. -/
theorem takeUp_reads {step record} (h : s.Readable codec) (hr : s.ReadyFor record)
    (hev : ∀ p, s.evidence = some p → p.request.integrationId = request.integrationId →
      p.request.epoch < request.epoch) :
    takeUp codec request step record s = ([], succeed s.record record step) := by
  have hf : s.evidence.all (fun proof =>
      proof.request.integrationId != request.integrationId ||
        decide (proof.request.epoch < request.epoch)) = true := by
    rw [Option.all_eq_true]
    intro p hp
    by_cases hid : p.request.integrationId = request.integrationId
    · simp [hid, hev p hp hid]
    · simp [hid]
  have ha : admitStep codec request step record s = ([], .ok ()) := by
    unfold admitStep
    rw [bind_of_reads (revokeEvidence_reads h),
      bind_of_reads (require_reads hf), bind_of_reads (get_reads s),
      bind_of_reads (require_reads (.inl hr.isOpen)),
      bind_of_reads (require_reads hr.idle),
      bind_of_reads (require_reads (.inl hr.head)),
      bind_of_reads (require_reads (.inr hr.latest))]
    exact require_reads hr.identity
  unfold takeUp
  rw [bind_of_reads ha, bind_of_reads (load_reads h)]
  rfl

end

/-! ## Histories -/

/-- A request about one epoch of the cycle of `source`; a step carries the same frozen
source and policy. -/
structure OfEpoch (source : IntegrationRecord) (epoch : Nat) (request : HostIntegrationRequest) :
    Prop where
  integrationId : request.integrationId = some source.snapshot.integrationId
  epoch : request.epoch = epoch
  source : ∀ step record, request.action = .step step record →
    record.policy = source.policy ∧ sameFrozenSource record source = true

def HostState.reached (s : HostState) (id : IntegrationId) (epoch : Nat) : Bool :=
  s.record.any fun r => r.snapshot.integrationId == id && r.snapshot.epoch == epoch

/-- The epochs of the cycle so far were all stopped, and every stop was confirmed; the
list tells for each whether the host ran a phase of it. -/
inductive EpochHistory (codec : Codec) (source : IntegrationRecord) :
    List Bool → HostState → Prop
  /-- The cycle is new to the host; an earlier cycle under the same policy is over. -/
  | start {s : HostState} (hreadable : s.Readable codec)
      (hrecord : ∀ r, s.record = some r → r.snapshot.integrationId ≠ source.snapshot.integrationId ∧
        r.retired = true ∧ r.policy = source.policy)
      (hevidence : ∀ p, s.evidence = some p →
        p.request.integrationId ≠ some source.snapshot.integrationId) :
    EpochHistory codec source [] s
  | task {phases : List Bool} {s t : HostState} (h : EpochHistory codec source phases s)
      (hmove : TaskMove s t) : EpochHistory codec source phases t
  /-- Any requests of the next epoch, complete or cut off, and at last a confirmed stop. -/
  | epoch {phases : List Bool} {s u : HostState} {git : HostOracle}
      {request : HostIntegrationRequest} {tombstone : IntegrationTombstone}
      {identity : IntegrationResponseIdentity} (h : EpochHistory codec source phases s)
      (hrun : HostRun codec (OfEpoch source phases.length) TaskMove s u)
      (hof : OfEpoch source phases.length request) (haction : request.action = .revoke tombstone)
      (hanswer : (execute codec git request).answer u = .ok (.revoked identity)) :
    EpochHistory codec source
      (phases ++ [((execute codec git request).final u).reached source.snapshot.integrationId
        phases.length]) ((execute codec git request).final u)

/-! ## What a history leaves on the host -/

/-- The stored record of the cycle: of the last epoch that reached the host, or none. -/
inductive LastPhase (source : IntegrationRecord) (phases : List Bool) :
    Option IntegrationRecord → Prop
  | none (hphases : true ∉ phases) : LastPhase source phases none
  | other {r : IntegrationRecord} (hphases : true ∉ phases)
      (hid : r.snapshot.integrationId ≠ source.snapshot.integrationId)
      (hretired : r.retired = true) (hpolicy : r.policy = source.policy) :
    LastPhase source phases (some r)
  | phase {r : IntegrationRecord} (later : List Bool)
      (hid : r.snapshot.integrationId = source.snapshot.integrationId)
      (hphases : ∃ earlier, phases = earlier ++ true :: later ∧
        earlier.length = r.snapshot.epoch) (hlater : true ∉ later)
      (hretired : r.retired = true) (hpolicy : r.policy = source.policy)
      (hsource : sameFrozenSource r source = true) :
    LastPhase source phases (some r)

/-- While an epoch runs: the record of before, or one of this epoch. -/
def Running (source : IntegrationRecord) (phases : List Bool)
    (record : Option IntegrationRecord) : Prop :=
  LastPhase source phases record ∨ ∃ r, record = some r ∧
    r.snapshot.integrationId = source.snapshot.integrationId ∧
    r.snapshot.epoch = phases.length ∧ r.policy = source.policy ∧
    sameFrozenSource r source = true

section
variable {codec : Codec} {git : HostOracle} {request : HostIntegrationRequest} {s t : HostState}
  {source : IntegrationRecord} {phases : List Bool}

theorem sameFrozenSource_iff {old next} :
    sameFrozenSource old next = true ↔ old.snapshot.sourceHead = next.snapshot.sourceHead ∧
      old.snapshot.sourceTurnId = next.snapshot.sourceTurnId ∧
      old.sourceRevision = next.sourceRevision ∧ old.cycleBase = next.cycleBase ∧
      old.sourceChecks = next.sourceChecks ∧ old.sourceSummary = next.sourceSummary ∧
      old.gitIdentity = next.gitIdentity := by
  simp [sameFrozenSource, and_assoc]

theorem sameFrozenSource_of_same {r r'} (h : r.SameSource r')
    (hs : sameFrozenSource r source = true) : sameFrozenSource r' source = true := by
  rw [sameFrozenSource_iff] at *
  rw [h.sourceHead, h.sourceTurnId, h.sourceRevision, h.cycleBase, h.sourceChecks,
    h.sourceSummary, h.gitIdentity]
  exact hs

theorem sameFrozenSource_common {old next} (hol : sameFrozenSource old source = true)
    (hn : sameFrozenSource next source = true) :
    sameFrozenSource old next = true := by
  rw [sameFrozenSource_iff] at *
  obtain ⟨a, b, c, d, e, f, g⟩ := hol
  obtain ⟨a', b', c', d', e', f', g'⟩ := hn
  exact ⟨a.trans a'.symm, b.trans b'.symm, c.trans c'.symm, d.trans d'.symm, e.trans e'.symm,
    f.trans f'.symm, g.trans g'.symm⟩

theorem LastPhase.epoch_lt {r} (h : LastPhase source phases (some r))
    (hid : r.snapshot.integrationId = source.snapshot.integrationId) :
    r.snapshot.epoch < phases.length := by
  cases h with
  | other _ hot => exact absurd hid hot
  | phase later _ hp _ _ _ _ =>
    obtain ⟨earlier, rfl, hl⟩ := hp
    simp only [length_append, length_cons]
    omega

theorem Running.of_of {r r'} (h : Running source phases (some r))
    (hep : OfEpoch source phases.length request) (hof : r.Of request) (hs : r.SameSource r') :
    Running source phases (some r') := by
  have hid : r.snapshot.integrationId = source.snapshot.integrationId :=
    Option.some.inj (hof.1.trans hep.integrationId)
  have hn : r.snapshot.epoch = phases.length := hof.2.trans hep.epoch
  rcases h with hl | ⟨r₀, hr₀, -, -, hp, hso⟩
  · have := hl.epoch_lt hid
    omega
  · cases hr₀
    exact .inr ⟨r', rfl, hs.integrationId.trans hid, hs.epoch.trans hn,
      hs.policy.trans hp, sameFrozenSource_of_same hs hso⟩

theorem Running.write (h : Running source phases s.record)
    (hep : OfEpoch source phases.length request)
    (hw : HostWrite codec git request s t) : Running source phases t.record := by
  cases hw with
  | arm => exact h
  | accept => exact h
  | push => exact h
  | head => exact h
  | evidence => exact h
  | save _ hre =>
    cases hre with
    | stop mark _ _ hr hof hs _ _ =>
      rw [hr] at h
      refine h.of_of hep hof ?_
      refine IntegrationRecord.SameSource.trans ?_ hs.toSameSource
      constructor <;> rfl
    | @start step record next hac ha hsu =>
      -- The step carries the epoch and the frozen source of its request.
      have hs := (succeed_ok hsu).sameSource.trans (refresh_sameCycle next).toSameSource
      obtain ⟨hp, hso⟩ := hep.source step record hac
      refine .inr ⟨_, rfl, ?_, ?_, hs.policy.trans hp, sameFrozenSource_of_same hs hso⟩
      · rw [hs.integrationId]
        exact Option.mem_unique ha.integrationId hep.integrationId
      · rw [hs.epoch, ha.epoch, hep.epoch]
    | work hr hof hs _ =>
      rw [hr] at h
      exact h.of_of hep hof hs.toSameSource
    | verify hr hof hs =>
      rw [hr] at h
      exact h.of_of hep hof hs.toSameSource

/-- The remembered stops of the cycle are of this epoch or of earlier ones. -/
def StopsUpTo (source : IntegrationRecord) (epoch : Nat) (s : HostState) : Prop :=
  ∀ p, s.evidence = some p → p.request.integrationId = some source.snapshot.integrationId →
    p.request.epoch ≤ epoch

theorem StopsUpTo.write {epoch} (h : StopsUpTo source epoch s) (hep : OfEpoch source epoch request)
    (hw : HostWrite codec git request s t) :
    StopsUpTo source epoch t := by
  cases hw with
  | arm => exact h
  | accept => exact h
  | push => exact h
  | head => exact h
  | save => exact h
  | evidence proof _ _ _ _ hpr =>
    intro p hp _
    cases hp
    rw [hpr, hep.epoch]

structure EpochState (codec : Codec) (source : IntegrationRecord) (phases : List Bool)
    (s : HostState) : Prop where
  readable : s.Readable codec
  running : Running source phases s.record
  stops : StopsUpTo source phases.length s

theorem EpochState.write (h : EpochState codec source phases s)
    (hep : OfEpoch source phases.length request)
    (hw : HostWrite codec git request s t) : EpochState codec source phases t :=
  ⟨h.readable.write hw, h.running.write hep hw, h.stops.write hep hw⟩

theorem EpochState.run {u} (h : EpochState codec source phases s)
    (hr : HostRun codec (OfEpoch source phases.length) TaskMove s u) :
    EpochState codec source phases u := by
  refine HostRun.invariant (fun _ _ _ _ hep ha hw => ha.write hep hw) ?_ h hr
  intro a b ha hm
  cases hm
  exact ⟨⟨ha.readable.record, ha.readable.evidence⟩, ha.running, ha.stops⟩

/-- A confirmed stop closes the epoch: what is stored is over, whether or not a phase of
the epoch was. -/
theorem LastPhase.close (h : Running source phases s.record) (hst : Stopped request s) :
    LastPhase source (phases ++ [s.reached source.snapshot.integrationId phases.length])
      s.record := by
  have hre : ∀ r, s.record = some r → r.retired = true := by
    intro r hr
    cases hst with
    | beforePhase _ _ hre => exact hre r hr
    | phase hr' _ hre _ =>
      cases hr.symm.trans hr'
      exact hre
  rcases h with hl | ⟨r, hr, hid, hep, hp, hs⟩
  · cases hrc : s.record with
    | none =>
      rw [hrc] at hl
      cases hl with
      | none hph => exact .none (by simpa [HostState.reached, hrc] using hph)
    | some r =>
      rw [hrc] at hl
      have hrh : s.reached source.snapshot.integrationId phases.length = false := by
        unfold HostState.reached
        rw [hrc]
        by_cases hid : r.snapshot.integrationId = source.snapshot.integrationId
        · have := hl.epoch_lt hid
          simp [hid]
          omega
        · simp [hid]
      rw [hrh]
      cases hl with
      | other hph hid hre hp =>
        exact .other (by simpa using hph) hid hre hp
      | phase later hid hph hla hre hp hs =>
        obtain ⟨earlier, rfl, hle⟩ := hph
        refine .phase (later ++ [false]) hid ⟨earlier, ?_, hle⟩ ?_ hre hp hs
        · simp
        · simpa using hla
  · have hrh : s.reached source.snapshot.integrationId phases.length = true := by
      simp [HostState.reached, hr, hid, hep]
    rw [hrh, hr]
    exact .phase [] hid ⟨phases, rfl, hep.symm⟩ (by simp) (hre r hr) hp hs

/-- **What a history leaves.** -/
theorem EpochHistory.state (h : EpochHistory codec source phases s) :
    s.Readable codec ∧ LastPhase source phases s.record ∧
      ∀ p, s.evidence = some p → p.request.integrationId = some source.snapshot.integrationId →
        p.request.epoch < phases.length := by
  induction h with
  | @start s hre hrc hev =>
    refine ⟨hre, ?_, fun p hp hid => absurd hid (hev p hp)⟩
    cases hr : s.record with
    | none => exact .none (by simp)
    | some r =>
      obtain ⟨hid, hrt, hpo⟩ := hrc r hr
      exact .other (by simp) hid hrt hpo
  | task _ hm ih =>
    cases hm
    exact ⟨⟨ih.1.record, ih.1.evidence⟩, ih.2⟩
  | @epoch phases s u git request tombstone identity _ hru hof hac han ih =>
    obtain ⟨hre, hl, hs⟩ := ih
    have hb : EpochState codec source phases s := ⟨hre, .inl hl, fun p hp hid => (hs p hp hid).le⟩
    have ha : EpochState codec source phases ((execute codec git request).final u) :=
      (hb.run hru).run (.single (.completed git hof))
    obtain ⟨-, hst⟩ := ((execute_spec u).ok han).stop tombstone hac identity rfl
    refine ⟨ha.readable, LastPhase.close ha.running hst, ?_⟩
    intro p hp hid
    have := ha.stops p hp hid
    rw [length_append]
    simp only [length_singleton]
    omega

/-! ## The first step of the next epoch -/

/-- A record as the owner opens an epoch with. -/
structure IntegrationRecord.Opens (record : IntegrationRecord) : Prop where
  candidates : record.candidates = []
  auxiliaries : record.auxiliaries = []
  pushIntent : record.pushIntent = none
  receipt : record.receipt = none
  tombstone : record.tombstone = none

theorem succeedCycle_opens {old record} (hop : record.Opens) (hr : old.retired = true)
    (hs : old.snapshot.integrationId = record.snapshot.integrationId →
      sameFrozenSource old record = true)
    (hep : old.snapshot.integrationId = record.snapshot.integrationId →
      old.snapshot.epoch + 1 < 2 ^ 32 ∧ old.snapshot.epoch + 1 = record.snapshot.epoch) :
    ∃ next, succeedCycle old record .fetch = .ok next := by
  unfold succeedCycle
  dsimp only
  rw [ensure_of hs, bind_ok, ensure_of ⟨hr, .inl rfl, hop.candidates,
    hop.auxiliaries, hop.pushIntent, hop.receipt, hop.tombstone, hep⟩]
  exact ⟨_, rfl⟩

theorem succeedCycle_gap {old record} (step : IntegrationStep)
    (hid : old.snapshot.integrationId = record.snapshot.integrationId)
    (hep : old.snapshot.epoch + 1 ≠ record.snapshot.epoch) :
    succeedCycle old record step = .error invalid := by
  unfold succeedCycle
  dsimp only
  rw [ensure_then_eq_error, ensure_then_eq_error]
  by_cases hs : old.snapshot.integrationId = record.snapshot.integrationId →
      sameFrozenSource old record = true
  · exact .inr ⟨hs, .inl ⟨fun h => hep (h.2.2.2.2.2.2.2 hid).2, rfl⟩⟩
  · exact .inl ⟨hs, rfl⟩

/-- The last epoch reached the host exactly when its record is of the epoch before. -/
theorem LastPhase.last_iff {r} (h : LastPhase source phases (some r))
    (hid : r.snapshot.integrationId = source.snapshot.integrationId) :
    (true ∉ phases ∨ phases.getLast? = some true) ↔ r.snapshot.epoch + 1 = phases.length := by
  cases h with
  | other _ hot => exact absurd hid hot
  | phase later _ hp hla _ _ _ =>
    obtain ⟨earlier, rfl, hle⟩ := hp
    cases hl : later.getLast? with
    | none =>
      rw [getLast?_eq_none_iff] at hl
      simp [hl, hle]
    | some b =>
      have hf : b = false := by
        cases b with
        | false => rfl
        | true => exact absurd (mem_of_getLast? hl) hla
      have hne : later ≠ [] := by
        intro hn
        rw [hn] at hl
        cases hl
      have hpo := length_pos_iff.mpr hne
      have hno : ¬ (true ∉ earlier ++ true :: later ∨
          (earlier ++ true :: later).getLast? = some true) := by
        rw [getLast?_append, getLast?_cons, hl]
        simp [hf]
      refine iff_of_false hno ?_
      simp only [length_append, length_cons]
      omega

end

/-- **Which re-drives the host takes up.** After any history of stopped epochs, on an open
and idle task that stands at the unchanged source, the first fetch of the next epoch gets
past the checks on what is stored exactly when no epoch of the cycle ever reached the host
or the one before did; otherwise the answer is that the state is invalid. -/
theorem redrive_accepted_iff {codec : Codec} {source record : IntegrationRecord}
    {phases : List Bool} {s : HostState} {request : HostIntegrationRequest}
    (h : EpochHistory codec source phases s) (hbound : phases.length < 2 ^ 32)
    (hrequest : request.validate codec = .ok ()) (haction : request.action = .step .fetch record)
    (hof : OfEpoch source phases.length request) (hopens : record.Opens)
    (hready : s.ReadyFor record) :
    ((∃ next, (takeUp codec request .fetch record).answer s = .ok next) ↔
        true ∉ phases ∨ phases.getLast? = some true) ∧
      (¬ (true ∉ phases ∨ phases.getLast? = some true) →
        (takeUp codec request .fetch record).answer s = .error invalid) := by
  obtain ⟨hrd, hl, hsp⟩ := h.state
  obtain ⟨-, -, hre⟩ := validate_step hrequest haction
  obtain ⟨hpo, hso⟩ := hof.source .fetch record haction
  have hid : record.snapshot.integrationId = source.snapshot.integrationId :=
    Option.some.inj (hre.1.trans hof.integrationId)
  have hep : record.snapshot.epoch = phases.length := hre.2.trans hof.epoch
  have ha : (takeUp codec request .fetch record).answer s = succeed s.record record .fetch := by
    unfold Prog.answer
    rw [takeUp_reads hrd hready]
    intro p hp hna
    rw [hof.epoch]
    exact hsp p hp (hna.trans hof.integrationId)
  rw [ha]
  cases hst : s.record with
  | none =>
    rw [hst] at hl
    cases hl with
    | none hph => exact ⟨iff_of_true ⟨_, rfl⟩ (.inl hph), fun h => absurd (.inl hph) h⟩
  | some old =>
    rw [hst] at hl
    have hpl : old.policy = record.policy := by
      rw [hpo]
      cases hl with
      | other _ _ _ hpo => exact hpo
      | phase _ _ _ _ _ hpo _ => exact hpo
    have hne : ¬ (old.snapshot.integrationId = record.snapshot.integrationId ∧
        old.snapshot.epoch = record.snapshot.epoch) := by
      rintro ⟨hs, hno⟩
      have := hl.epoch_lt (hs.trans hid)
      omega
    have hsu : succeed (some old) record .fetch = succeedCycle old record .fetch := by
      unfold succeed
      dsimp only
      rw [ensure_of ⟨hpl, fun h => absurd h hne⟩, bind_ok, if_neg hne]
    rw [hsu]
    by_cases hs : old.snapshot.integrationId = record.snapshot.integrationId
    · have hif := hl.last_iff (hs.trans hid)
      by_cases hn : old.snapshot.epoch + 1 = phases.length
      · have hc := hif.mpr hn
        cases hl with
        | other _ hot => exact absurd (hs.trans hid) hot
        | phase _ _ _ _ hr _ hf =>
          refine ⟨iff_of_true ?_ hc, fun h => absurd hc h⟩
          exact succeedCycle_opens hopens hr (fun _ => sameFrozenSource_common hf hso)
            fun _ => ⟨by omega, hn.trans hep.symm⟩
      · have hg := succeedCycle_gap .fetch hs (by rw [hep]; exact hn)
        rw [hg]
        exact ⟨iff_of_false (by simp) (fun h => hn (hif.mp h)), fun _ => rfl⟩
    · cases hl with
      | other hph _ hr _ =>
        refine ⟨iff_of_true ?_ (.inl hph), fun h => absurd (.inl hph) h⟩
        exact succeedCycle_opens hopens hr (fun h => absurd h hs) fun h => absurd h hs
      | phase _ ht _ _ _ _ _ => exact absurd (ht.trans hid.symm) hs

/-! ### A gap -/

theorem sampleStop_of (epoch revision : Nat) :
    OfEpoch (sampleRecord 0 1) epoch (sampleStop epoch revision) :=
  ⟨rfl, rfl, by simp [sampleStop, sampleRequest]⟩

theorem fetchEpoch_of (epoch revision : Nat) : OfEpoch (sampleRecord 0 1) epoch
    (sampleRequest epoch revision (.step .fetch (sampleRecord epoch revision))) := by
  refine ⟨rfl, rfl, ?_⟩
  intro step record ha
  cases ha
  exact ⟨rfl, rfl⟩

def stoppedOnce : HostState :=
  (execute sampleCodec sampleGit (sampleStop 0 2)).final (afterStep sampleGit .fetch 1 sampleHost)

theorem stoppedOnce_history : EpochHistory sampleCodec (sampleRecord 0 1) [true] stoppedOnce := by
  have hs : EpochHistory sampleCodec (sampleRecord 0 1) [] sampleHost :=
    .start ⟨by simp [sampleHost], by simp [sampleHost]⟩ (by simp [sampleHost])
      (by simp [sampleHost])
  have ha : (execute sampleCodec sampleGit (sampleStop 0 2)).answer
      (afterStep sampleGit .fetch 1 sampleHost) =
        .ok (.revoked (.forRequest (sampleStop 0 2))) := by rfl
  exact hs.epoch (.single (.completed sampleGit (fetchEpoch_of 0 1))) (sampleStop_of 0 2) rfl ha

theorem redrive_after_phase : EpochHistory sampleCodec (sampleRecord 0 1) [true] stoppedOnce ∧
    ∃ next, (takeUp sampleCodec (sampleRequest 1 3 (.step .fetch (sampleRecord 1 3))) .fetch
      (sampleRecord 1 3)).answer stoppedOnce = .ok next := by
  refine ⟨stoppedOnce_history, ?_⟩
  exact (redrive_accepted_iff stoppedOnce_history (by decide) rfl rfl (fetchEpoch_of 1 3)
    ⟨rfl, rfl, rfl, rfl, rfl⟩ ⟨rfl, rfl, rfl, rfl, rfl⟩).1.mpr (.inr rfl)

def stoppedTwice : HostState := (execute sampleCodec sampleGit (sampleStop 1 4)).final stoppedOnce

/-- The first fetch of epoch 2 is refused, on a host that confirmed every stop. -/
theorem redrive_refused : EpochHistory sampleCodec (sampleRecord 0 1) [true, false] stoppedTwice ∧
    stoppedTwice.ReadyFor (sampleRecord 2 5) ∧ (sampleRecord 2 5).Opens ∧
    (execute sampleCodec sampleGit
      (sampleRequest 2 5 (.step .fetch (sampleRecord 2 5)))).answer stoppedTwice =
        .error invalid := by
  have ha : (execute sampleCodec sampleGit (sampleStop 1 4)).answer stoppedOnce =
      .ok (.revoked (.forRequest (sampleStop 1 4))) := by rfl
  refine ⟨?_, ⟨rfl, rfl, rfl, rfl, rfl⟩, ⟨rfl, rfl, rfl, rfl, rfl⟩, rfl⟩
  exact stoppedOnce_history.epoch .refl (sampleStop_of 1 4) rfl ha

end MacWorker.Integration
