import MacWorker.Integration.HostRuns

/-! # The revocation fence

A confirmed stop is remembered in one of three places: the evidence of a stop that
preceded every phase, which a later stop overwrites; the tombstone or the epoch of the
record, which a later cycle overwrites; and the list of turns, where a later ordinary turn
retires every source before it. Every write that gives one up establishes another. -/
namespace MacWorker.Integration
open Fallible Durable Relation List
open Dag (IntegrationStatus IntegrationCode)

/-! ## Ordinary turns -/

/-- The turns of the task that are not auxiliary turns of an integration. -/
def HostState.ordinaryTurns (s : HostState) : List TurnId :=
  (s.status.turns.map (·.turnId)).filter fun turn => (s.prepared turn).isNone

theorem HostState.latestOrdinarySource_eq (s : HostState) :
    s.latestOrdinarySource = s.ordinaryTurns.getLast? := by
  unfold latestOrdinarySource ordinaryTurns
  rw [getLast?_eq_head?_reverse, ← filter_reverse, ← map_reverse, filter_map,
    head?_map, ← head?_filter]
  rfl

/-- The task goes on: it only adds turns under new ids, and a turn that exists stays
ordinary or auxiliary. -/
structure TurnsExtend (s t : HostState) : Prop where
  turns : ∃ new, t.status.turns.map (·.turnId) = s.status.turns.map (·.turnId) ++ new ∧
    ∀ turn ∈ new, turn ∉ s.status.turns.map (·.turnId)
  prepared : ∀ turn ∈ s.status.turns.map (·.turnId), t.prepared turn = s.prepared turn
  record : t.record = s.record
  evidence : t.evidence = s.evidence
  pushes : t.pushes = s.pushes

theorem TurnsExtend.ordinaryTurns {s t} (h : TurnsExtend s t) :
    ∃ new, t.ordinaryTurns = s.ordinaryTurns ++ new ∧ ∀ turn ∈ new, turn ∉ s.ordinaryTurns := by
  obtain ⟨new, hn, hf⟩ := h.turns
  refine ⟨new.filter fun turn => (t.prepared turn).isNone, ?_, ?_⟩
  · unfold HostState.ordinaryTurns
    rw [hn, filter_append]
    congr 1
    refine filter_congr fun turn ht => ?_
    rw [h.prepared turn ht]
  · intro turn ht hm
    exact hf turn (mem_of_mem_filter ht) (mem_of_mem_filter hm)

/-! ## The fence -/

structure Fence (id : IntegrationId) (epoch : Nat) (s : HostState) : Prop where
  source : id.source ∈ s.ordinaryTurns
  holds : (∃ p, s.evidence = some p ∧ p.request.integrationId = some id ∧ epoch ≤ p.request.epoch) ∨
    (∃ r, s.record = some r ∧ r.snapshot.integrationId = id ∧
      (epoch < r.snapshot.epoch ∨ r.snapshot.epoch = epoch ∧ r.tombstone.isSome)) ∨
    s.latestOrdinarySource ≠ some id.source

/-- Requests that name one cycle for each source turn. -/
def Genuine (cycleOf : TurnId → IntegrationId) (request : HostIntegrationRequest) : Prop :=
  ∀ id, request.integrationId = some id → id = cycleOf id.source

section
variable {codec : Codec} {git : HostOracle} {request : HostIntegrationRequest} {s t : HostState}
  {id : IntegrationId} {epoch : Nat} {cycleOf : TurnId → IntegrationId}

theorem Fence.of_stopped (ha : RevokeAdmitted request s) (hs : Stopped request s)
    (hid : request.integrationId = some id) : Fence id request.epoch s := by
  obtain ⟨id', source, hid', hl, hso⟩ := ha.source
  cases hid.symm.trans hid'
  refine ⟨?_, ?_⟩
  · rw [HostState.latestOrdinarySource_eq] at hl
    exact hso ▸ mem_of_getLast? hl
  · cases hs with
    | beforePhase hp hre _ =>
      exact .inl ⟨_, hp, hre ▸ hid, hre ▸ le_rfl⟩
    | phase hr hof _ ht =>
      refine .inr (.inl ⟨_, hr, ?_, .inr ⟨hof.2, ht⟩⟩)
      exact Option.some.inj (hof.1.trans hid)

section
variable (h : Fence id epoch s)
include h

theorem Fence.sameCycle {r r'} (hr : s.record = some r)
    (hid : r'.snapshot.integrationId = r.snapshot.integrationId)
    (hep : r'.snapshot.epoch = r.snapshot.epoch) (ht : r.tombstone.isSome → r'.tombstone.isSome) :
    Fence id epoch (s.setRecord r') := by
  refine ⟨h.source, ?_⟩
  rcases h.holds with hev | ⟨r₀, hr₀, hid₀, hs⟩ | hl
  · exact .inl hev
  · cases hr.symm.trans hr₀
    refine .inr (.inl ⟨r', rfl, hid.trans hid₀, ?_⟩)
    rw [hep]
    exact hs.imp_right fun h => ⟨h.1, ht h.2⟩
  · exact .inr (.inr hl)

/-- A step that opens another epoch or another cycle keeps the fence: the epoch is
later, or the source of the other cycle is the latest one. -/
theorem Fence.start {step record next} (hg : Genuine cycleOf request)
    (hc : id = cycleOf id.source) (ha : StepAdmitted codec request step record s)
    (hsu : Succession record step s.record next) :
    Fence id epoch (s.setRecord next) := by
  have hs := hsu.sameSource
  cases hst : s.record with
  | none =>
    refine ⟨h.source, ?_⟩
    rcases h.holds with hev | ⟨r, hr, -⟩ | hl
    · exact .inl hev
    · cases hst.symm.trans hr
    · exact .inr (.inr hl)
  | some old =>
    rw [hst] at hsu
    cases hsu with
    | continued _ _ hid hep _ _ _ _ ht =>
      refine h.sameCycle hst (hs.integrationId.trans hid.symm) (hs.epoch.trans hep.symm) ?_
      rw [ht]
      exact fun h => h
    | succeeded _ _ _ hsp hn _ _ _ =>
      refine ⟨h.source, ?_⟩
      rcases h.holds with hev | ⟨r, hr, hid, hsto⟩ | hl
      · exact .inl hev
      · cases hst.symm.trans hr
        by_cases hsi : old.snapshot.integrationId = record.snapshot.integrationId
        · refine .inr (.inl ⟨next, rfl, ?_, .inl ?_⟩)
          · rw [hs.integrationId, ← hsi, hid]
          · rw [hs.epoch, ← hn hsi]
            omega
        · refine .inr (.inr ?_)
          intro hl
          have hv := (IntegrationRecord.validate_eq_ok codec).mp ha.valid
          have hso : s.latestOrdinarySource = some record.snapshot.sourceTurnId := by
            refine ha.source.resolve_left ?_
            rcases hsp with rfl | rfl <;> simp
          have htu : record.snapshot.integrationId.source = id.source := by
            rw [hv.id]
            exact Option.mem_unique hso hl
          apply hsi
          rw [hid, hc, hg _ ha.integrationId, htu]
      · exact .inr (.inr hl)

/-- **What one write preserves.** -/
theorem Fence.write (hg : Genuine cycleOf request)
    (hc : id = cycleOf id.source) (hw : HostWrite codec git request s t) :
    Fence id epoch t := by
  cases hw with
  | arm => exact ⟨h.source, h.holds⟩
  | accept => exact ⟨h.source, h.holds⟩
  | push => exact ⟨h.source, h.holds⟩
  | head => exact ⟨h.source, h.holds⟩
  | evidence proof _ ha _ _ hpr =>
    obtain ⟨id', source, hid', hl, hso⟩ := ha.source
    refine ⟨h.source, ?_⟩
    rcases h.holds with ⟨p, hp, hpi, hep⟩ | hre | hrt
    · by_cases hs : id'.source = id.source
      · -- The same source is the same cycle, and its stops never go back.
        have hid : request.integrationId = some id := by
          rw [hid', hc, ← hs, ← hg id' hid']
        refine .inl ⟨_, rfl, hpr ▸ hid, ?_⟩
        rw [hpr]
        exact hep.trans (ha.evidence p hp (hpi.trans hid.symm))
      · refine .inr (.inr ?_)
        intro hl'
        apply hs
        rw [hso]
        exact Option.mem_unique hl hl'
    · exact .inr (.inl hre)
    · exact .inr (.inr hrt)
  | save _ hre =>
    cases hre with
    | stop _ _ _ hr _ hs _ _ =>
      refine h.sameCycle hr hs.integrationId hs.epoch fun _ => ?_
      rw [hs.tombstone]
      rfl
    | @start step record next _ ha hsu =>
      have hf := h.start hg hc ha (succeed_ok hsu)
      have hs := refresh_sameCycle next
      exact hf.sameCycle rfl hs.integrationId hs.epoch fun h => hs.tombstone ▸ h
    | work hr _ hs _ =>
      exact h.sameCycle hr hs.integrationId hs.epoch fun h => hs.tombstone ▸ h
    | verify hr _ hs _ _ _ _ _ _ =>
      exact h.sameCycle hr hs.integrationId hs.epoch fun h => hs.tombstone ▸ h

theorem Fence.turns (hm : TurnsExtend s t) : Fence id epoch t := by
  obtain ⟨new, hn, hf⟩ := hm.ordinaryTurns
  refine ⟨by rw [hn]; exact mem_append_left _ h.source, ?_⟩
  rcases h.holds with hev | hr | hl
  · exact .inl (hm.evidence ▸ hev)
  · exact .inr (.inl (hm.record ▸ hr))
  · refine .inr (.inr ?_)
    rw [HostState.latestOrdinarySource_eq, hn] at *
    rw [getLast?_append]
    cases hla : new.getLast? with
    | none => simpa using hl
    | some turn =>
      intro ht
      have hs : turn = id.source := by simpa using ht
      exact hf turn (mem_of_getLast? hla) (hs ▸ h.source)

/-- **What a whole run preserves.** -/
theorem Fence.run (hc : id = cycleOf id.source)
    (hr : HostRun codec (Genuine cycleOf) TurnsExtend s t) : Fence id epoch t :=
  HostRun.invariant (fun _ _ _ _ hg ha hw => ha.write hg hc hw)
    (fun _ _ ha hm => ha.turns hm) h hr

/-! ## What the fence keeps out -/

theorem Fence.no_push {record r}
    (ha : StepAdmitted codec request .push record s) (hr : s.record = some r) (hof : r.Of request)
    (hl : r.tombstone = none) (hid : request.integrationId = some id)
    (hep : request.epoch ≤ epoch) :
    False := by
  rcases h.holds with ⟨p, hp, hpi, hs⟩ | ⟨r₀, hr₀, -, hs⟩ | hla
  · have := ha.evidence p hp (hpi.trans hid.symm)
    omega
  · cases hr.symm.trans hr₀
    rcases hs with hlt | ⟨-, ht⟩
    · have := hof.2
      omega
    · rw [hl] at ht
      cases ht
  · have hv := (IntegrationRecord.validate_eq_ok codec).mp ha.valid
    have hso := ha.source.resolve_left (by simp)
    apply hla
    rw [hso, ← Option.mem_unique ha.integrationId hid, hv.id]

end

theorem HostWrite.latestOrdinarySource_eq (h : HostWrite codec git request s t) :
    t.latestOrdinarySource = s.latestOrdinarySource := by
  cases h <;> rfl

theorem HostWrite.pushes_eq (h : HostWrite codec git request s t)
    (hn : ∀ record r, StepAdmitted codec request .push record s → s.record = some r →
      r.Of request → r.tombstone = none → False) : t.pushes = s.pushes := by
  cases h with
  | arm => rfl
  | evidence => rfl
  | save => rfl
  | accept => rfl
  | head => rfl
  | push _ ha hr hof hl => exact (hn _ _ ha hr hof hl).elim

end

/-- **The revocation fence.** Once a stop of a cycle is confirmed, no step of that cycle
up to that epoch reaches Git's push, whatever requests, crashes and turns lie between,
as long as all requests name one cycle for each source turn. And a step of a source
that is not the latest ordinary turn never does. -/
theorem revocation_fence (codec : Codec) (cycleOf : TurnId → IntegrationId) :
    (∀ s u git request tombstone identity git' later step record,
      request.action = .revoke tombstone → Genuine cycleOf request →
      (execute codec git request).answer s = .ok (.revoked identity) →
      HostRun codec (Genuine cycleOf) TurnsExtend ((execute codec git request).final s) u →
      later.action = .step step record → later.integrationId = request.integrationId →
      later.epoch ≤ request.epoch →
      ∀ t ∈ (execute codec git' later).exposed u, t.pushes = u.pushes) ∧
    (∀ s git request step record id,
      request.action = .step step record → request.integrationId = some id →
      s.latestOrdinarySource ≠ some id.source →
      ∀ t ∈ (execute codec git request).exposed s, t.pushes = s.pushes) := by
  constructor
  · intro s u git request tombstone identity git' later step record hac hg han hru _ hn hep t ht
    obtain ⟨had, hs⟩ := ((execute_spec s).ok han).stop tombstone hac identity rfl
    obtain ⟨id, -, hid, -⟩ := had.source
    have hc := hg id hid
    have hf := (Fence.of_stopped had hs hid).run hc hru
    have hl : Genuine cycleOf later := fun id' hid' => hg id' (hn ▸ hid')
    refine (Reach.invariant (p := fun a => Fence id request.epoch a ∧ a.pushes = u.pushes) ?_
      ⟨hf, rfl⟩ (writes_of_exposed ht)).2
    rintro a b ⟨ha, hp⟩ hw
    refine ⟨ha.write hl hc hw, (hw.pushes_eq ?_).trans hp⟩
    intro record r ham hr hof hli
    exact ha.no_push ham hr hof hli (hn.trans hid) hep
  · intro s git request step record id _ hid hla t ht
    refine (Reach.invariant (p := fun a => a.latestOrdinarySource = s.latestOrdinarySource ∧
      a.pushes = s.pushes) ?_ ⟨rfl, rfl⟩ (writes_of_exposed ht)).2
    rintro a b ⟨ha, hp⟩ hw
    refine ⟨hw.latestOrdinarySource_eq.trans ha, (hw.pushes_eq ?_).trans hp⟩
    intro record r ham _ _ _
    have hv := (IntegrationRecord.validate_eq_ok codec).mp ham.valid
    have hso := ham.source.resolve_left (by simp)
    apply hla
    rw [← ha, hso, ← Option.mem_unique ham.integrationId hid, hv.id]

/-- The sample's cycle is fetched, stopped, and pushed by a delayed request. -/
theorem revocation_fence_sample :
    (execute sampleCodec sampleGit (sampleStop 0 2)).answer
      (afterStep sampleGit .fetch 1 sampleHost) =
      .ok (.revoked (.forRequest (sampleStop 0 2))) ∧
    ∀ t ∈ (execute sampleCodec sampleGit
        (sampleRequest 0 3 (.step .push (sampleRecord 0 3)))).exposed
        ((execute sampleCodec sampleGit (sampleStop 0 2)).final
          (afterStep sampleGit .fetch 1 sampleHost)),
      t.pushes = ((execute sampleCodec sampleGit (sampleStop 0 2)).final
          (afterStep sampleGit .fetch 1 sampleHost)).pushes := by
  have hs : (execute sampleCodec sampleGit (sampleStop 0 2)).answer
      (afterStep sampleGit .fetch 1 sampleHost) =
      .ok (.revoked (.forRequest (sampleStop 0 2))) := by rfl
  refine ⟨hs, ?_⟩
  refine (revocation_fence sampleCodec fun source => ⟨⟨7⟩, source, sourceHead, sampleKey⟩).1 _ _
    sampleGit (sampleStop 0 2) _ _ sampleGit _ .push (sampleRecord 0 3) rfl ?_ hs .refl rfl rfl
    (by decide)
  intro id hid
  cases hid
  rfl

/-! ### Two cycles of one source -/

def containedReceipt : IntegrationReceipt :=
  ⟨⟨⟨7⟩, ⟨1⟩, sourceHead, sampleKey⟩, 0, ⟨1⟩, sourceHead, firstTarget, none, .alreadyIntegrated,
    false, 5⟩

/-- The sample's host once its cycle is imported: the task now stands at the target. -/
def importedHost : HostState :=
  (execute sampleCodec sampleGit (sampleRequest 0 2 (.step .repair { sampleRecord 0 2 with
      receipt := some { containedReceipt with imported := true } }))).final
    (afterStep { sampleGit with settleTarget := fun _ _ => .ok (some containedReceipt) } .fetch 1
      sampleHost)

/-- A request about the cycle that the same source would start from the target. -/
def otherRequest (revision : Nat) (action : HostIntegrationAction) : HostIntegrationRequest :=
  { sampleRequest 0 revision action with
    integrationId := some ⟨⟨7⟩, ⟨1⟩, firstTarget, sampleKey⟩ }

def otherRecord (revision : Nat) : IntegrationRecord :=
  { sampleRecord 0 revision with
    snapshot := { (sampleRecord 0 revision).snapshot with
      integrationId := ⟨⟨7⟩, ⟨1⟩, firstTarget, sampleKey⟩
      sourceHead := firstTarget } }

def otherStop : HostIntegrationRequest := otherRequest 1 (.revoke ⟨0, 1, 0, false⟩)

/-- The other cycle is stopped, the imported one is stopped at its next epoch, and the
other one is fetched. -/
def overwrittenHost : HostState :=
  (execute sampleCodec movedGit (otherRequest 2 (.step .fetch (otherRecord 2)))).final
    ((execute sampleCodec movedGit (sampleStop 1 3)).final
      ((execute sampleCodec movedGit otherStop).final importedHost))

/-- Where two cycles of one source are requested, the stop of one overwrites the evidence
of the other, and the stopped cycle is pushed. -/
theorem fence_overwritten :
    HostRun sampleCodec (fun _ => True) TurnsExtend sampleHost importedHost ∧
    (execute sampleCodec movedGit otherStop).answer importedHost =
      .ok (.revoked (.forRequest otherStop)) ∧
    HostRun sampleCodec (fun _ => True) TurnsExtend
      ((execute sampleCodec movedGit otherStop).final importedHost) overwrittenHost ∧
    ((execute sampleCodec movedGit (otherRequest 3 (.step .push (otherRecord 3)))).final
      overwrittenHost).pushes.length = overwrittenHost.pushes.length + 1 := by
  refine ⟨?_, by rfl, ?_, by decide⟩
  · exact (ReflTransGen.single (.completed _ trivial)).tail (.completed _ trivial)
  · exact (ReflTransGen.single (.completed _ trivial)).tail (.completed _ trivial)

end MacWorker.Integration
