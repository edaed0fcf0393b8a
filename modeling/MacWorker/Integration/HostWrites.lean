import MacWorker.Integration.Host

/-! # What one request can write

Every durable write of a host request, as a relation between the states before
and after it, with the checks that precede it. All invariants of the host are
derived from this relation. -/
namespace MacWorker.Integration
open Fallible Durable Relation
open Dag (IntegrationStatus IntegrationCode)

/-! ## What a write of a running cycle leaves alone -/

structure IntegrationRecord.SameSource (r r' : IntegrationRecord) : Prop where
  taskId : r'.taskId = r.taskId := by rfl
  policy : r'.policy = r.policy := by rfl
  integrationId : r'.snapshot.integrationId = r.snapshot.integrationId := by rfl
  epoch : r'.snapshot.epoch = r.snapshot.epoch := by rfl
  sourceTurnId : r'.snapshot.sourceTurnId = r.snapshot.sourceTurnId := by rfl
  sourceHead : r'.snapshot.sourceHead = r.snapshot.sourceHead := by rfl
  sourceRevision : r'.sourceRevision = r.sourceRevision := by rfl
  sourceSummary : r'.sourceSummary = r.sourceSummary := by rfl
  cycleBase : r'.cycleBase = r.cycleBase := by rfl
  sourceChecks : r'.sourceChecks = r.sourceChecks := by rfl
  gitIdentity : r'.gitIdentity = r.gitIdentity := by rfl

structure IntegrationRecord.SameCycle (r r' : IntegrationRecord) : Prop extends
    r.SameSource r' where
  auxiliaries : r'.auxiliaries = r.auxiliaries := by rfl
  tombstone : r'.tombstone = r.tombstone := by rfl

namespace IntegrationCandidate

/-- The same candidate, whatever has been worked out for it. -/
def SameInputs (c c' : IntegrationCandidate) : Prop :=
  c' = { c with
    treeOid := c'.treeOid, mergeOid := c'.mergeOid, conflictPaths := c'.conflictPaths }

variable {c c' c'' : IntegrationCandidate} (oracles : HostOracle → Prop)

theorem SameInputs.refl (c : IntegrationCandidate) : c.SameInputs c := rfl

theorem SameInputs.trans (h : c.SameInputs c') (h' : c'.SameInputs c'') : c.SameInputs c'' := by
  unfold SameInputs at *
  rw [h', h]

theorem SameInputs.symm (h : c.SameInputs c') : c'.SameInputs c := by
  unfold SameInputs at *
  rw [h]

def FromMerge (c : IntegrationCandidate) : Prop :=
  ∃ git c₀ tree, oracles git ∧ c₀.SameInputs c ∧ git.mergeTree c₀ = .ok (tree, c.conflictPaths)

def FromCommit (c : IntegrationCandidate) (oid : BaseOid) : Prop :=
  ∃ git c₀ tree, oracles git ∧ c₀.SameInputs c ∧ c₀.treeOid = some tree ∧
    c.treeOid = some tree ∧ git.commitTree c₀ = .ok oid

end IntegrationCandidate

/-- `c'` is `c` with more of its merge done; a frozen tree stays. -/
structure IntegrationCandidate.Refines (c c' : IntegrationCandidate) : Prop where
  same : c' = { c with
    treeOid := c'.treeOid, mergeOid := c'.mergeOid, conflictPaths := c'.conflictPaths }
  tree : ∀ tree, c.treeOid = some tree → c'.treeOid = some tree

namespace IntegrationCandidate.Refines
variable {c c' c'' : IntegrationCandidate}

theorem refl (c : IntegrationCandidate) : c.Refines c := ⟨rfl, fun _ h => h⟩

theorem trans (h : c.Refines c') (h' : c'.Refines c'') : c.Refines c'' := by
  refine ⟨?_, fun tree ht => h'.tree tree (h.tree tree ht)⟩
  rw [h'.same, h.same]

end IntegrationCandidate.Refines

/-- What Git had to do with it: it found the conflicts and made the commit. -/
structure IntegrationCandidate.Improves (git : HostOracle) (c c' : IntegrationCandidate) : Prop
    extends c.Refines c' where
  paths : c'.conflictPaths = c.conflictPaths ∨ (c.mergeOid = none ∧ c'.FromMerge (· = git))
  merge : c'.mergeOid = c.mergeOid ∨ ∃ oid, c'.mergeOid = some oid ∧ c'.FromCommit (· = git) oid

theorem IntegrationCandidate.Improves.refl (git : HostOracle) (c : IntegrationCandidate) :
    c.Improves git c :=
  ⟨.refl c, .inl rfl, .inl rfl⟩

/-- How the candidates of a cycle and the mark of its verification change together. -/
inductive IntegrationRecord.Advances (git : HostOracle) (r r' : IntegrationRecord) : Prop
  | kept (hcandidates : r'.candidates = r.candidates)
      (hmark : r'.snapshot.verification = r.snapshot.verification ∨
        r'.snapshot.verification = .sourceAgentReportOnly)
  | refined {before : List IntegrationCandidate} {c c' : IntegrationCandidate}
      (hold : r.candidates = before ++ [c]) (hnew : r'.candidates = before ++ [c'])
      (himproves : c.Improves git c')
      (hmark : r'.snapshot.verification = r.snapshot.verification)
  | appended {c : IntegrationCandidate} (hnew : r'.candidates = r.candidates ++ [c])
      (hmark : r'.snapshot.verification = .sourceAgentReportOnly ∨
        (r.candidates = [] ∧ r'.snapshot.verification = r.snapshot.verification))
      (hid : c.id = ⟨r.snapshot.integrationId, r.snapshot.epoch, r.candidates.length + 1⟩)
      (hfresh : c.sourceHead = r.snapshot.sourceHead ∧ c.identity = r.gitIdentity ∧
        c.mergeOid = none)

variable (codec : Codec) (git : HostOracle) (request : HostIntegrationRequest)

/-- The record belongs to the cycle and epoch that the request names. -/
def IntegrationRecord.Of (r : IntegrationRecord) : Prop :=
  some r.snapshot.integrationId = request.integrationId ∧ r.snapshot.epoch = request.epoch

/-! ## Admission -/

/-- A stop that the host takes up: the stored cycle of the latest source, or the
cycle it would start. -/
structure RevokeAdmitted (s : HostState) : Prop where
  source : ∃ id source, request.integrationId = some id ∧
    s.latestOrdinarySource = some source ∧ id.source = source
  epoch : ∀ r, s.record = some r → some r.snapshot.integrationId = request.integrationId →
    r.snapshot.epoch ≤ request.epoch
  evidence : ∀ p, s.evidence = some p → p.request.integrationId = request.integrationId →
    p.request.epoch ≤ request.epoch

structure StepAdmitted (step : IntegrationStep) (record : IntegrationRecord) (s : HostState) :
    Prop where
  valid : record.validate codec = .ok ()
  task : record.taskId = s.info.taskId ∧ record.policy.projectId = s.info.projectId
  integrationId : request.integrationId = some record.snapshot.integrationId
  epoch : record.snapshot.epoch = request.epoch
  evidence : ∀ p, s.evidence = some p → p.request.integrationId = request.integrationId →
    p.request.epoch < request.epoch
  source : step = .repair ∨ s.latestOrdinarySource = some record.snapshot.sourceTurnId

/-! ## Writes -/

/-- A record that `request` may store over the one of `s`. -/
inductive RecordWrite (s : HostState) : IntegrationRecord → Prop
  | stop {tombstone : IntegrationTombstone} (mark : IntegrationTombstone) {r r' : IntegrationRecord}
      (haction : request.action = .revoke tombstone) (hadmitted : RevokeAdmitted request s)
      (hr : s.record = some r) (hof : r.Of request)
      (hsame : IntegrationRecord.SameCycle { r with tombstone := some mark } r')
      (hcandidates : r'.candidates = r.candidates)
      (hmark : r'.snapshot.verification = r.snapshot.verification) :
    RecordWrite s r'
  | start {step : IntegrationStep} {record next : IntegrationRecord}
      (haction : request.action = .step step record)
      (hadmitted : StepAdmitted codec request step record s)
      (hsucceed : succeed s.record record step = .ok next) :
    RecordWrite s (refresh next)
  | work {r r' : IntegrationRecord} (hr : s.record = some r) (hof : r.Of request)
      (hsame : r.SameCycle r') (hadvances : r.Advances git r') :
    RecordWrite s r'
  | verify {r r' : IntegrationRecord} {before : List IntegrationCandidate}
      {c c' : IntegrationCandidate} {a : Acceptance} (hr : s.record = some r)
      (hof : r.Of request) (hsame : r.SameCycle r') (hold : r.candidates = before ++ [c])
      (hnew : r'.candidates = before ++ [c']) (himproves : c.Improves git c') (ha : a ∈ s.accepts)
      (hfor : a.candidate.Refines c)
      (hmark : r'.snapshot.verification = purposeVerification a.prepared.purpose) :
    RecordWrite s r'

inductive HostWrite (s : HostState) : HostState → Prop
  | arm (policy : FrozenIntegrationPolicy) (hnone : s.policy = none) :
    HostWrite s { s with policy := some policy }
  | evidence {tombstone : IntegrationTombstone} (proof : HostRevokeEvidence)
      (haction : request.action = .revoke tombstone) (hadmitted : RevokeAdmitted request s)
      (hvalid : request.validate codec = .ok ()) (htask : request.taskId = s.info.taskId)
      (hproof : proof.request = request) :
    HostWrite s { s with evidence := some proof }
  | save {r' : IntegrationRecord} (hvalid : r'.validate codec = .ok ())
      (hwrite : RecordWrite codec git request s r') :
    HostWrite s (s.setRecord r')
  | accept {r : IntegrationRecord} {c : IntegrationCandidate} {aux : IntegrationAuxiliaryIntent}
      {prepared : PreparedIntegrationTurn} (hr : s.record = some r)
      (hlast : r.candidates.getLast? = some c) (haux : acceptedAuxiliary r c = some aux)
      (hprepared : s.prepared aux.turnId = some prepared)
      (hacceptable : acceptable codec r aux prepared s.status = .ok ())
      (htarget : git.fetchTarget r = .ok c.targetHead) :
    HostWrite s (s.logAcceptance ⟨c, aux, prepared, s.status, r.sourceChecks, c.targetHead⟩)
  | push {record r : IntegrationRecord} {c : IntegrationCandidate}
      (haction : request.action = .step .push record)
      (hadmitted : StepAdmitted codec request .push record s) (hr : s.record = some r)
      (hof : r.Of request) (hlive : r.tombstone = none)
      (hlast : r.candidates.getLast? = some c) (hintent : r.pushIntent.isSome)
      (hsource : validateSourceChecks r.sourceChecks = .ok ())
      (hconflicts : c.conflictPaths = [] ∨ r.snapshot.verification = .resolveAgentReport)
      (hverified : needsVerification git r c = .ok false) :
    HostWrite s (s.logPush c (git.tree c.sourceHead))
  | head (oid : BaseOid) : HostWrite s (s.setHead oid)

abbrev Writes : HostState → HostState → Prop := ReflTransGen (HostWrite codec git request)

/-! ## Updates of a record within its cycle -/

section
variable {r r' r'' : IntegrationRecord}

theorem IntegrationRecord.SameSource.symm (h : r.SameSource r') : r'.SameSource r := by
  cases h
  constructor <;> simp_all only

theorem IntegrationRecord.SameSource.trans (h : r.SameSource r') (h' : r'.SameSource r'') :
    r.SameSource r'' := by
  cases h
  cases h'
  constructor <;> simp_all only

theorem IntegrationRecord.SameCycle.refl (r : IntegrationRecord) : r.SameCycle r :=
  {}

theorem IntegrationRecord.SameCycle.symm (h : r.SameCycle r') : r'.SameCycle r :=
  ⟨h.toSameSource.symm, h.auxiliaries.symm, h.tombstone.symm⟩

theorem IntegrationRecord.SameCycle.trans (h : r.SameCycle r') (h' : r'.SameCycle r'') :
    r.SameCycle r'' :=
  ⟨h.toSameSource.trans h'.toSameSource, h'.auxiliaries.trans h.auxiliaries,
    h'.tombstone.trans h.tombstone⟩

theorem IntegrationRecord.Of.same {request} (h : r.Of request) (hs : r.SameSource r') :
    r'.Of request := by
  unfold IntegrationRecord.Of
  rw [hs.integrationId, hs.epoch]
  exact h

theorem setLastCandidate_sameCycle (r : IntegrationRecord) (c : IntegrationCandidate) :
    r.SameCycle (setLastCandidate r c) :=
  {}

theorem setLastCandidate_candidates {before c c'} (h : r.candidates = before ++ [c]) :
    (setLastCandidate r c').candidates = before ++ [c'] := by
  simp [setLastCandidate, h]

theorem projectReceipt_sameCycle (r : IntegrationRecord) : r.SameCycle (projectReceipt r) := by
  unfold projectReceipt
  split
  · exact .refl r
  · exact {}

theorem keepReceipt_sameCycle (r : IntegrationRecord) (receipt : IntegrationReceipt) :
    r.SameCycle (keepReceipt r receipt) := by
  have hr : r.SameCycle { r with receipt := some receipt } := {}
  exact hr.trans (projectReceipt_sameCycle _)

@[simp] theorem projectReceipt_candidates (r : IntegrationRecord) :
    (projectReceipt r).candidates = r.candidates := by
  unfold projectReceipt
  split <;> rfl

@[simp] theorem projectReceipt_verification (r : IntegrationRecord) :
    (projectReceipt r).snapshot.verification = r.snapshot.verification := by
  unfold projectReceipt
  split <;> rfl

theorem presentCandidate_sameCycle (r : IntegrationRecord) (c : IntegrationCandidate) :
    r.SameCycle (presentCandidate r c) :=
  {}

theorem getLast_split {c} (h : r.candidates.getLast? = some c) :
    ∃ before, r.candidates = before ++ [c] :=
  ⟨r.candidates.dropLast, (List.dropLast_append_getLast? c h).symm⟩

end

/-! ## Each function -/

section
variable {codec git request} {s₀ s : HostState} {r : IntegrationRecord} {record : IntegrationRecord}
  {C : HostState → Prop} {step : IntegrationStep} {R : Unit → HostState → Prop}
  {c : IntegrationCandidate} {policy : FrozenIntegrationPolicy} {tombstone : IntegrationTombstone}

theorem save_spec {r'} (h : r'.validate codec = .ok () → C (s.setRecord r') ∧
    R () (s.setRecord r')) :
    Spec (save codec r') s C (Ok R) := by
  unfold save
  simp only [ok_bind, ok_lift, ok_write]
  exact fun _ hv => h hv

theorem load_spec {R} (h : (∀ r, s.record = some r → r.validate codec = .ok ()) → R s.record s) :
    Spec (load codec) s C (Ok R) := by
  unfold load
  simp only [ok_bind, ok_get]
  cases hr : s.record with
  | none =>
    rw [hr] at h
    exact ok_pure.mpr (h (by simp))
  | some r =>
    rw [hr] at h
    simp only [ok_bind, ok_lift, ok_require, ok_pure]
    intro _ hv _
    exact h fun r' hr' => Option.some.inj hr' ▸ hv

def frozenTree (r : IntegrationRecord) (c : IntegrationCandidate) (tree : BaseOid) :
    IntegrationRecord :=
  setLastCandidate r { c with treeOid := some tree }

theorem commitIn_spec {R c cand} (hr : s.record = some r) (hl : r.candidates.getLast? = some c)
    (h : ∀ tree, cand.treeOid = some tree → (∀ t, c.treeOid = some t → t = tree) →
      (frozenTree r c tree).validate codec = .ok () →
      C (s.setRecord (frozenTree r c tree)) ∧
      ∀ oid, git.commitTree cand = .ok oid →
      R { cand with mergeOid := some oid } (s.setRecord (frozenTree r c tree))) :
    Spec (commitIn codec git cand) s C (Ok R) := by
  unfold commitIn
  simp only [ok_bind, ok_lift]
  intro _ _
  refine load_spec fun _ => ?_
  rw [hr]
  cases htr : cand.treeOid with
  | none => exact ok_fail
  | some tree =>
    simp only [hl, ok_bind, ok_require]
    rintro ⟨-, hf⟩
    have hs : ∀ t, c.treeOid = some t → t = tree := by
      intro t ht
      simpa [ht] using hf
    refine save_spec fun hv => ?_
    obtain ⟨hC, hR⟩ := h tree htr hs hv
    refine ⟨hC, ?_⟩
    simp only [ok_lift, ok_pure]
    simpa only [htr, frozenTree] using hR

/-- What a merge leaves: the stored record refined, and a candidate that improves on
its last one. One that is still to be resolved comes from the merge. -/
structure Merged (git : HostOracle) (s t : HostState) (r : IntegrationRecord)
    (c c' : IntegrationCandidate) : Prop where
  state : ∃ r₁, t = (s.setRecord r₁) ∧ r.SameCycle r₁ ∧
    r₁.snapshot.verification = r.snapshot.verification ∧
    ∃ c₁, r₁.candidates = r.candidates.dropLast ++ [c₁] ∧ c.Refines c₁ ∧ c₁.Improves git c'
  unresolved : c'.mergeOid = none → c'.FromMerge (· = git)

theorem improves_frozen {tree} (hs : ∀ t, c.treeOid = some t → t = tree) :
    c.Improves git { c with treeOid := some tree } :=
  ⟨⟨rfl, fun t ht => by rw [hs t ht]⟩, .inl rfl, .inl rfl⟩

theorem Merged.of_frozen {paths tree oid} (hs : ∀ t, c.treeOid = some t → t = tree)
    (hp : paths = c.conflictPaths ∨ (c.mergeOid = none ∧
      ∃ tree, git.mergeTree c = .ok (tree, paths)))
    (ho : git.commitTree { c with treeOid := some tree, conflictPaths := paths } = .ok oid) :
    Merged git s (s.setRecord (frozenTree r c tree)) r c
      { c with treeOid := some tree, mergeOid := some oid, conflictPaths := paths } := by
  have hf : c.Improves git { c with treeOid := some tree } := improves_frozen hs
  refine ⟨⟨_, rfl, setLastCandidate_sameCycle .., rfl, _, rfl, hf.1, ⟨rfl, fun _ ht => ht⟩, ?_,
    .inr ⟨oid, rfl, git, { c with treeOid := some tree, conflictPaths := paths }, tree, rfl, rfl,
      rfl, rfl, ho⟩⟩, nofun⟩
  exact hp.imp_right fun ⟨hn, tree, hm⟩ => ⟨hn, git, c, tree, rfl, rfl, hm⟩

theorem RecordWrite.freeze {tree} (hr : s.record = some r) (hof : r.Of request)
    (hl : r.candidates.getLast? = some c) (hs : ∀ t, c.treeOid = some t → t = tree) :
    RecordWrite codec git request s (frozenTree r c tree) := by
  obtain ⟨before, hb⟩ := getLast_split hl
  refine .work hr hof (setLastCandidate_sameCycle ..)
    (.refined hb (setLastCandidate_candidates hb) (improves_frozen hs) rfl)

section
variable (h₀ : Writes codec git request s₀ s) (hr : s.record = some r) (hof : r.Of request)
  (hl : r.candidates.getLast? = some c)
include h₀ hr hof hl

theorem merge_spec (hn : c.mergeOid = none) :
    Spec (merge codec git c) s (Writes codec git request s₀) (Ok fun c' t =>
      Writes codec git request s₀ t ∧ Merged git s t r c c') := by
  obtain ⟨before, hb⟩ := getLast_split hl
  unfold merge
  simp only [ok_bind, ok_lift]
  rintro _ - ⟨tree, paths⟩ hm _ hp
  by_cases hc : paths = []
  · rw [if_pos hc]
    refine commitIn_spec hr hl fun tree' ht hs hv => ?_
    cases ht
    have hw := h₀.tail (.save hv (.freeze hr hof hl hs))
    exact ⟨hw, fun oid ho => ⟨hw, .of_frozen hs (.inr ⟨hn, tree, hm⟩) ho⟩⟩
  · rw [if_neg hc]
    have hf : IntegrationCandidate.FromMerge (· = git) { c with conflictPaths := paths } :=
      ⟨git, c, tree, rfl, rfl, hm⟩
    refine ok_pure.mpr ⟨h₀, ⟨r, ?_, .refl r, rfl, c, ?_, .refl c, ⟨rfl, fun _ h => h⟩,
      .inr ⟨hn, hf⟩, .inl rfl⟩, fun _ => hf⟩
    · exact (HostState.setRecord_self hr).symm
    · simp [hb]

theorem acceptWorkspace_spec {purpose} :
    Spec (acceptWorkspace codec git record c purpose) s (Writes codec git request s₀)
      (Ok fun c' t => Writes codec git request s₀ t ∧ Merged git s t r c c') := by
  -- The candidate that is committed differs from the stored one in its tree only.
  have hc : ∀ cand, (∀ tree, cand.treeOid = some tree → cand = { c with treeOid := some tree }) →
      Spec (commitIn codec git cand) s (Writes codec git request s₀) (Ok fun c' t =>
        ∀ u, git.keepWorkspace record c' = .ok u →
          Writes codec git request s₀ t ∧ Merged git s t r c c') := by
    intro cand hca
    refine commitIn_spec hr hl fun tree ht hs hv => ?_
    obtain rfl := hca tree ht
    have hw := h₀.tail (.save hv (.freeze hr hof hl hs))
    exact ⟨hw, fun oid ho _ _ => ⟨hw, .of_frozen hs (.inl rfl) ho⟩⟩
  unfold acceptWorkspace
  simp only [ok_bind, ok_lift]
  rintro _ -
  cases purpose with
  | verify =>
    simp only [ok_bind, ok_lift, ok_pure]
    refine hc c fun tree ht => ?_
    rw [← ht]
  | resolve =>
    simp only [ok_bind, ok_lift, ok_require, ok_pure]
    rintro tree - -
    refine hc _ fun tree' ht => ?_
    rw [← ht]

end

/-- A candidate for the target is stored last. -/
structure HasCandidate (record record' : IntegrationRecord) (t : HostState) (target : BaseOid) :
    Prop where
  stored : t.record = some record'
  same : record.SameCycle record'
  last : ∃ c, record'.candidates.getLast? = some c ∧ c.targetHead = target

theorem retireCandidate_ok {record record' target}
    (h : retireCandidate git record target = .ok record') :
    record.SameCycle record' ∧ record'.candidates = record.candidates ∧
      (record' = record ∧ (∀ p, record.candidates.getLast? = some p → p.targetHead = target) ∨
        record'.snapshot.verification = .sourceAgentReportOnly ∧
        ∀ p, record.candidates.getLast? = some p → p.targetHead ≠ target) := by
  unfold retireCandidate at h
  cases hl : record.candidates.getLast? with
  | none =>
    rw [hl] at h
    cases h
    exact ⟨.refl _, rfl, .inl ⟨rfl, by simp⟩⟩
  | some previous =>
    simp only [hl] at h
    split at h
    · rename_i ht
      cases h
      refine ⟨.refl _, rfl, .inl ⟨rfl, ?_⟩⟩
      rintro p hp
      cases hp
      exact ht
    · rename_i ht
      obtain ⟨-, -, h⟩ := by simpa only [then_eq_ok] using h
      cases h
      refine ⟨{}, rfl, .inr ⟨rfl, ?_⟩⟩
      rintro p hp
      cases hp
      exact ht

theorem ensureCandidate_spec {record record₁ target} (h₀ : Writes codec git request s₀ s)
    (hr : s.record = some record) (hof : record.Of request)
    (hre : retireCandidate git record target = .ok record₁) :
    Spec (ensureCandidate codec git record₁ target) s (Writes codec git request s₀)
      (Ok fun record₂ t => Writes codec git request s₀ t ∧ HasCandidate record record₂ t target ∧
        t = (s.setRecord record₂)) := by
  obtain ⟨hs, hca, hcs⟩ := retireCandidate_ok hre
  unfold ensureCandidate
  split
  · rename_i han
    refine ok_pure.mpr ?_
    obtain ⟨c, hl, ht⟩ : ∃ c, record₁.candidates.getLast? = some c ∧ c.targetHead = target := by
      simpa [Option.any_eq_true] using han
    rcases hcs with ⟨rfl, -⟩ | ⟨-, hm⟩
    · exact ⟨h₀, ⟨hr, .refl _, c, hl, ht⟩, (HostState.setRecord_self hr).symm⟩
    · exact absurd ht (hm c (hca ▸ hl))
  · rename_i han
    simp only [ok_bind, ok_get, ok_lift]
    rintro c hc _ -
    obtain ⟨_, -, hc⟩ := of_bind hc
    have hc := pure_eq_ok.mp hc
    have hs₂ : record.SameCycle { record₁ with
        candidates := record₁.candidates ++ [c]
        snapshot := { record₁.snapshot with attempts := record₁.candidates.length + 1 } } :=
      hs.trans {}
    have ha : record.Advances git { record₁ with
        candidates := record₁.candidates ++ [c]
        snapshot := { record₁.snapshot with attempts := record₁.candidates.length + 1 } } := by
      refine .appended (by rw [hca]) ?_ ?_ ?_
      · rcases hcs with ⟨rfl, hal⟩ | ⟨hma, -⟩
        · refine .inr ⟨?_, rfl⟩
          cases hl : record₁.candidates.getLast? with
          | none => exact List.getLast?_eq_none_iff.mp hl
          | some p => exact absurd (by simp [hl, hal p hl]) han
        · exact .inl hma
      · rw [← hs.integrationId, ← hs.epoch, ← hca, ← hc]
      · rw [← hc]
        exact ⟨hs.sourceHead, hs.gitIdentity, rfl⟩
    refine save_spec fun hv => ?_
    have hw := h₀.tail (.save hv (.work hr hof hs₂ ha))
    refine ⟨hw, ok_pure.mpr ⟨hw, ⟨rfl, hs₂, c, ?_, by rw [← hc]⟩, rfl⟩⟩
    simp

theorem presentCandidate_advances {c' t r₁} (hl : r.candidates.getLast? = some c)
    (hm : Merged git s t r c c') (hr₁ : t.record = some r₁) :
    r₁.SameCycle (presentCandidate r c') ∧ r₁.Advances git (presentCandidate r c') ∧
      (presentCandidate r c').candidates.getLast? = some c' := by
  obtain ⟨r₂, rfl, hs, hma, c₁, hc, -, hr⟩ := hm.state
  cases hr₁
  obtain ⟨before, hb⟩ := getLast_split hl
  refine ⟨?_, .refined hc rfl hr hma.symm, ?_⟩
  · exact hs.symm.trans (presentCandidate_sameCycle r c')
  · rw [show (presentCandidate r c').candidates = _ from setLastCandidate_candidates hb]
    exact List.getLast?_concat ..

theorem RecordWrite.receipt (receipt : IntegrationReceipt) (hr : s.record = some r)
    (hof : r.Of request) :
    RecordWrite codec git request s (keepReceipt r receipt) := by
  refine .work hr hof (keepReceipt_sameCycle ..) (.kept ?_ (.inl ?_))
  · exact projectReceipt_candidates _
  · exact projectReceipt_verification _

theorem pushAllowed_ok (h : pushAllowed git record c = .ok ()) :
    (c.conflictPaths = [] ∨ record.snapshot.verification = .resolveAgentReport) ∧
      needsVerification git record c = .ok false := by
  unfold pushAllowed at h
  obtain ⟨hc, h⟩ := of_then h
  obtain ⟨needed, hn, h⟩ := of_bind h
  obtain ⟨hf, -⟩ := of_then h
  refine ⟨ensure_eq_ok.mp hc, ?_⟩
  rw [hn, ensure_eq_ok.mp hf]

theorem StepAdmitted.setRecord (h : StepAdmitted codec request step record s)
    (r : IntegrationRecord) : StepAdmitted codec request step record (s.setRecord r) :=
  { h with }

def HostIntegrationResponse.offered : HostIntegrationResponse → Option IntegrationCandidate
  | .needTurn _ candidate _ => some candidate
  | .candidateReady _ candidate => some candidate
  | _ => none

/-- The candidate an answer carries is the last one stored. One that is still to be
resolved comes from a merge. -/
def Offers (git : HostOracle) (request : HostIntegrationRequest)
    (response : HostIntegrationResponse) (t : HostState) : Prop :=
  ∀ c, response.offered = some c → (c.mergeOid = none → c.FromMerge (· = git)) ∧
    ∃ r, t.record = some r ∧ r.Of request ∧ r.candidates.getLast? = some c

theorem offers_none {response t} (h : response.offered = none) : Offers git request response t := by
  intro c hc
  cases h.symm.trans hc

theorem offers_last {response} (hr : s.record = some r) (hof : r.Of request)
    (hl : r.candidates.getLast? = some c) (hm : c.mergeOid = none → c.FromMerge (· = git))
    (ho : response.offered = some c) : Offers git request response s := by
  intro c' hc'
  cases ho.symm.trans hc'
  exact ⟨hm, r, hr, hof, hl⟩

section
variable (h₀ : Writes codec git request s₀ s) (hr : s.record = some r) (hof : r.Of request)
include h₀ hr hof

theorem answerCandidate_spec (hs : r.SameCycle record) (ha : r.Advances git record)
    (hl : record.candidates.getLast? = some c) (hm : c.mergeOid = none → c.FromMerge (· = git)) :
    Spec (answerCandidate codec git request record c) s (Writes codec git request s₀)
      (Ok (Offers git request)) := by
  have hof' := hof.same hs.toSameSource
  unfold answerCandidate
  simp only [ok_bind, ok_lift]
  intro purpose _
  cases purpose with
  | some purpose =>
    simp only [ok_bind, ok_lift, ok_pure]
    refine save_spec fun hv => ⟨h₀.tail (.save hv
      (.work hr hof (hs.trans {}) ?_)), ?_⟩
    · cases ha with
      | kept h h' => exact .kept h h'
      | refined h h' h'' h''' => exact .refined h h' h'' h'''
      | appended h h' h'' h''' => exact .appended h h' h'' h'''
    · exact fun _ _ => offers_last rfl hof' hl hm rfl
  | none =>
    simp only
    split
    · simp only [ok_bind, ok_lift, ok_pure]
      exact fun _ _ => save_spec fun hv =>
        ⟨h₀.tail (.save hv (.work hr hof hs ha)), offers_last rfl hof' hl hm rfl⟩
    · simp only [ok_bind, ok_pure]
      exact save_spec fun hv =>
        ⟨h₀.tail (.save hv (.work hr hof hs ha)), offers_last rfl hof' hl hm rfl⟩

theorem fetchStep_spec :
    Spec (fetchStep codec git request r) s (Writes codec git request s₀)
      (Ok (Offers git request)) := by
  unfold fetchStep
  simp only [ok_bind, ok_lift, ok_require]
  rintro target - _ - ancestor - - settled -
  cases settled with
  | some receipt =>
    simp only [ok_bind, ok_pure]
    exact save_spec fun hv => ⟨h₀.tail (.save hv (.receipt _ hr hof)), offers_none rfl⟩
  | none =>
    simp only [ok_bind, ok_lift]
    intro record₁ hre
    refine (ensureCandidate_spec h₀ hr hof hre).imp fun record₂ t h => ?_
    obtain ⟨hw, ⟨hs, hsa, c, hl, hta⟩, ht⟩ := h
    have hof₂ := hof.same hsa.toSameSource
    simp only [hl, ok_bind, ok_lift]
    rintro _ -
    cases hme : c.mergeOid with
    | some oid =>
      simp only [ok_bind, ok_pure]
      have hm : Merged git t t record₂ c c :=
        ⟨⟨record₂, (HostState.setRecord_self hs).symm, .refl _, rfl, c, by
          simpa using (List.dropLast_append_getLast? c hl).symm, .refl c, .refl git c⟩,
          fun hn => by cases hme.symm.trans hn⟩
      obtain ⟨hs', ha, hl'⟩ := presentCandidate_advances hl hm hs
      exact answerCandidate_spec hw hs hof₂ hs' ha hl' hm.unresolved
    | none =>
      simp only [ok_bind]
      refine (merge_spec hw hs hof₂ hl hme).imp fun c' u h => ?_
      obtain ⟨hw', hm⟩ := h
      obtain ⟨r₁, rfl, hs₁, -⟩ := hm.state
      obtain ⟨hs', ha, hl'⟩ := presentCandidate_advances hl hm rfl
      exact answerCandidate_spec hw' rfl (hof₂.same hs₁.toSameSource) hs' ha hl' hm.unresolved

theorem pushStep_spec (ha : request.action = .step .push record)
    (had : StepAdmitted codec request .push record s)
    (hl : r.tombstone = none) (hs : validateSourceChecks r.sourceChecks = .ok ()) :
    Spec (pushStep codec git request r) s (Writes codec git request s₀)
      (Ok (Offers git request)) := by
  unfold pushStep
  cases hla : r.candidates.getLast? with
  | none => exact ok_fail
  | some c =>
    simp only [ok_bind, ok_lift]
    intro _ hal intent _
    obtain ⟨hc, hve⟩ := pushAllowed_ok hal
    refine save_spec fun hv => ?_
    have hin : Writes codec git request s₀ (s.setRecord (intendPush r intent)) :=
      h₀.tail (.save hv (.work hr hof {} (.kept rfl (.inl rfl))))
    have hp := hin.tail (HostWrite.push ha (had.setRecord _) rfl hof hl hla rfl hs hc hve)
    simp only [ok_write]
    refine ⟨hin, hp, ?_⟩
    intro outcome _
    cases outcome with
    | moved observed => exact ok_pure.mpr (offers_none rfl)
    | integrated receipt =>
      simp only [ok_bind, ok_pure]
      exact save_spec fun hv => ⟨hp.tail (.save hv (.receipt _ rfl hof)), offers_none rfl⟩

theorem acceptStep_spec : Spec (acceptStep codec git request step r) s (Writes codec git request s₀)
      (Ok (Offers git request)) := by
  unfold acceptStep
  cases hl : r.candidates.getLast? with
  | none => exact ok_fail
  | some c =>
    simp only
    split
    · rename_i hbu
      refine ok_pure.mpr (offers_last hr hof hl ?_ rfl)
      intro hn
      simp [built, hn] at hbu
    simp only [ok_bind, ok_get]
    cases hau : acceptedAuxiliary r c with
    | none => exact ok_fail
    | some aux =>
      cases hp : s.prepared aux.turnId with
      | none => simp only [hp]; exact ok_fail
      | some prepared =>
        simp only [hp, ok_bind, ok_lift]
        intro _ hac observed hob
        by_cases ht : observed = c.targetHead
        · simp only [ht, ne_eq, not_true_eq_false, if_false, ok_bind, ok_write]
          have ha := h₀.tail (HostWrite.accept hr hl hau hp hac (ht ▸ hob))
          refine ⟨ha, ?_⟩
          refine (acceptWorkspace_spec ha hr hof hl).imp fun c' t h => ?_
          obtain ⟨hw, hm⟩ := h
          obtain ⟨r₁, rfl, hs, hma, c₁, hc, hre, hr'⟩ := hm.state
          refine save_spec fun hv => ⟨hw.tail (.save hv (.verify (r := r₁) (a := _) rfl
            (hof.same hs.toSameSource) (hs.symm.trans ?_) hc rfl hr' List.mem_cons_self hre rfl)),
            ok_pure.mpr (offers_last rfl hof List.getLast?_concat hm.unresolved rfl)⟩
          exact {}
        · simp only [ht, ne_eq, not_false_eq_true, if_true, ok_bind, ok_pure]
          exact save_spec fun hv => ⟨h₀.tail (.save hv (.work hr hof {}
            (.kept rfl (.inr rfl)))), offers_none rfl⟩

theorem repairStep_spec :
    Spec (repairStep codec git request r) s (Writes codec git request s₀)
      (Ok (Offers git request)) := by
  unfold repairStep
  simp only [ok_bind, ok_get, ok_lift]
  intro receipt _
  cases receipt with
  | none =>
    simp only
    split
    · simp only [ok_bind, ok_pure]
      exact save_spec fun hv => ⟨h₀.tail (.save hv
        (.work hr hof {} (.kept rfl (.inl rfl)))), offers_none rfl⟩
    · exact ok_fail
  | some receipt =>
    simp only [ok_bind, ok_pure]
    refine save_spec fun hv => ?_
    have hre := h₀.tail (.save hv (.receipt receipt hr hof))
    refine ⟨hre, ?_⟩
    unfold repair
    simp only [ok_bind, ok_get, ok_lift, ok_require, ok_write]
    rintro _ - -
    have hh := hre.tail (HostWrite.head (receipt.mergeOid.getD receipt.targetHead))
    refine ⟨hh, save_spec fun hv => ⟨hh.tail (.save hv ?_), offers_none rfl⟩⟩
    exact .work rfl (hof.same (keepReceipt_sameCycle ..).toSameSource) (.refl _)
      (.kept rfl (.inl rfl))

end

/-! ## Taking up a step -/

/-- How the record of a step follows the stored one. -/
inductive Succession (record : IntegrationRecord) (step : IntegrationStep) :
    Option IntegrationRecord → IntegrationRecord → Prop
  | first {next : IntegrationRecord} (hsame : record.SameSource next)
      (hcandidates : next.candidates = record.candidates)
      (hmark : next.snapshot.verification = .sourceAgentReportOnly)
      (hlive : next.tombstone = none) :
    Succession record step none next
  | continued {old next : IntegrationRecord} (hsame : record.SameSource next)
      (hpolicy : old.policy = record.policy)
      (hid : old.snapshot.integrationId = record.snapshot.integrationId)
      (hepoch : old.snapshot.epoch = record.snapshot.epoch)
      (hsource : sameFrozenSource old record = true)
      (hstopped : old.tombstone.isSome → step = .repair)
      (hcandidates : next.candidates = old.candidates)
      (hmark : next.snapshot.verification = old.snapshot.verification)
      (htombstone : next.tombstone = old.tombstone) :
    Succession record step (some old) next
  | succeeded {old next : IntegrationRecord} (hsame : record.SameSource next)
      (hpolicy : old.policy = record.policy) (hretired : old.retired = true)
      (hstep : step = .fetch ∨ step = .prepare)
      (hepoch : old.snapshot.integrationId = record.snapshot.integrationId →
        old.snapshot.epoch + 1 = record.snapshot.epoch)
      (hcandidates : next.candidates = [])
      (hmark : next.snapshot.verification = .sourceAgentReportOnly)
      (hlive : next.tombstone = none) :
    Succession record step (some old) next

theorem succeed_ok {old record next} (h : succeed old record step = .ok next) :
    Succession record step old next := by
  cases old with
  | none =>
    cases h
    exact .first {} rfl rfl rfl
  | some old =>
    obtain ⟨hp, h⟩ := of_then h
    replace hp := (ensure_eq_ok.mp hp).1
    split at h
    · rename_i hcy
      obtain ⟨hc, h⟩ := of_then h
      obtain ⟨imported, -, h⟩ := of_bind h
      obtain ⟨auxiliaries, -, h⟩ := of_bind h
      obtain ⟨hs, hst⟩ := ensure_eq_ok.mp hc
      cases h
      exact .continued {} hp hcy.1 hcy.2 hs hst rfl rfl rfl
    · obtain ⟨-, h⟩ := of_then h
      obtain ⟨hc, h⟩ := of_then h
      obtain ⟨hr, hsp, hca, -, -, -, ht, hep⟩ := ensure_eq_ok.mp hc
      cases h
      exact .succeeded {} hp hr hsp (fun hid => (hep hid).2)
        hca rfl ht

theorem refresh_sameCycle (r : IntegrationRecord) : r.SameCycle (refresh r) := by
  refine IntegrationRecord.SameCycle.trans ?_ (projectReceipt_sameCycle _)
  exact {}

@[simp] theorem refresh_candidates (r : IntegrationRecord) :
    (refresh r).candidates = r.candidates := projectReceipt_candidates _

@[simp] theorem refresh_verification (r : IntegrationRecord) :
    (refresh r).snapshot.verification = r.snapshot.verification := projectReceipt_verification _

theorem Succession.sameSource {record next old} (h : Succession record step old next) :
    record.SameSource next := by
  cases h with
  | first h => exact h
  | continued h => exact h
  | succeeded h => exact h

theorem Succession.live {record next old} (h : Succession record step old next)
    (hs : step ≠ .repair) : next.tombstone = none := by
  cases h with
  | first _ _ _ hl => exact hl
  | continued _ _ _ _ _ hst _ _ ht =>
    rw [ht]
    exact Option.not_isSome_iff_eq_none.mp fun h => hs (hst h)
  | succeeded _ _ _ _ _ _ _ hl => exact hl

theorem revokeEvidence_spec {R} (h : R s.evidence s) : Spec (revokeEvidence codec) s C (Ok R) := by
  unfold revokeEvidence
  simp only [ok_bind, ok_get]
  cases hp : s.evidence with
  | none => exact ok_pure.mpr (hp ▸ h)
  | some proof =>
    simp only [ok_bind, ok_lift, ok_pure]
    exact fun _ _ => hp ▸ h

theorem validate_step (h : request.validate codec = .ok ())
    (ha : request.action = .step step record) :
    record.validate codec = .ok () ∧ record.taskId = request.taskId ∧ record.Of request := by
  obtain ⟨-, h⟩ := of_then h
  rw [ha] at h
  obtain ⟨hv, h⟩ := of_then h
  obtain ⟨ht, hid, hep, -⟩ := ensure_eq_ok.mp h
  exact ⟨hv, ht, hid, hep⟩

theorem admitStep_spec (hv : record.validate codec = .ok ())
    (ht : record.taskId = s.info.taskId ∧ record.policy.projectId = s.info.projectId)
    (hof : record.Of request) (h : StepAdmitted codec request step record s → R () s) :
    Spec (admitStep codec request step record) s C (Ok R) := by
  unfold admitStep
  simp only [ok_bind]
  refine revokeEvidence_spec ?_
  simp only [ok_require, ok_get]
  intro hev _ _ _ hs _
  refine h ⟨hv, ht, hof.1.symm, hof.2, ?_, hs⟩
  intro proof hp hid
  rw [hp] at hev
  simpa [hid] using hev

theorem performStep_spec (h₀ : Writes codec git request s₀ s) (hr : s.record = some r)
    (hof : r.Of request) (ha : request.action = .step step record)
    (had : StepAdmitted codec request step record s)
    (hl : step ≠ .repair → r.tombstone = none)
    (hc : step ≠ .repair → validateSourceChecks r.sourceChecks = .ok ()) :
    Spec (performStep codec git request step r) s (Writes codec git request s₀)
      (Ok (Offers git request)) := by
  unfold performStep
  cases r.receipt with
  | some receipt =>
    simp only
    split
    · exact repairStep_spec h₀ hr hof
    · exact ok_pure.mpr (offers_none rfl)
  | none =>
    cases step with
    | fetch => exact fetchStep_spec h₀ hr hof
    | prepare => exact fetchStep_spec h₀ hr hof
    | push =>
      exact pushStep_spec h₀ hr hof ha had (hl (by simp)) (hc (by simp))
    | acceptTurn => exact acceptStep_spec h₀ hr hof
    | build => exact acceptStep_spec h₀ hr hof
    | repair => exact repairStep_spec h₀ hr hof

theorem runStep_spec (h₀ : Writes codec git request s₀ s) (hrq : request.validate codec = .ok ())
    (ht : request.taskId = s.info.taskId ∧ record.policy.projectId = s.info.projectId)
    (ha : request.action = .step step record) :
    Spec (runStep codec git request step record) s (Writes codec git request s₀)
      (Ok (Offers git request)) := by
  obtain ⟨hv, hsa, hre⟩ := validate_step hrq ha
  unfold runStep takeUp
  simp only [ok_bind]
  refine admitStep_spec hv ⟨hsa.trans ht.1, ht.2⟩ hre fun had => load_spec fun _ => ?_
  simp only [ok_lift]
  intro next hn
  have hsu := succeed_ok hn
  have hof := hre.same (hsu.sameSource.trans (refresh_sameCycle next).toSameSource)
  have hl : step ≠ .repair → (refresh next).tombstone = none := by
    intro hst
    rw [(refresh_sameCycle next).tombstone]
    exact hsu.live hst
  have ha' := had.setRecord (refresh next)
  have hs := fun hv => h₀.tail (.save hv (.start ha had hn))
  by_cases hr : step = .repair
  · rw [if_neg (not_not_intro hr)]
    refine ok_bind.mpr (save_spec fun hv => ⟨hs hv, ?_⟩)
    exact performStep_spec (hs hv) rfl hof ha ha' hl
      fun h => absurd hr h
  · rw [if_pos hr]
    simp only [ok_bind, ok_lift]
    intro _ hc
    refine save_spec fun hv => ⟨hs hv, ?_⟩
    exact performStep_spec (hs hv) rfl hof ha ha' hl fun _ => hc

theorem readStep_spec (h₀ : Writes codec git request s₀ s) : Spec (readStep codec git request) s
      (Writes codec git request s₀)
      (Ok fun response _ => response.offered = none) := by
  unfold readStep
  simp only [ok_bind]
  refine load_spec fun _ => ?_
  cases hr : s.record with
  | none => exact ok_pure.mpr rfl
  | some r =>
    simp only [ok_bind, ok_require, ok_lift]
    intro hn receipt _
    cases receipt with
    | none => exact ok_pure.mpr rfl
    | some receipt =>
      simp only [ok_bind, ok_pure]
      have hk := keepReceipt_sameCycle
        { r with snapshot := { r.snapshot with revision := request.revision } } receipt
      have hs : r.SameCycle _ := { hk with }
      refine save_spec fun hv => ⟨h₀.tail (.save hv (.work hr ⟨hn.1, hn.2.1⟩ hs ?_)), rfl⟩
      exact .kept (projectReceipt_candidates _) (.inl (projectReceipt_verification _))

/-! ## Stopping -/

/-- What the host holds once it has answered that a cycle is stopped. -/
inductive Stopped (request : HostIntegrationRequest) (t : HostState) : Prop
  /-- No phase of the epoch was ever stored. -/
  | beforePhase {proof : HostRevokeEvidence} (hproof : t.evidence = some proof)
      (hrequest : proof.request = request)
      (hretired : ∀ r, t.record = some r → r.retired = true)
  | phase {r : IntegrationRecord} (hr : t.record = some r) (hof : r.Of request)
      (hretired : r.retired = true) (hstopped : r.tombstone.isSome)

def StopAnswer (request : HostIntegrationRequest) (response : HostIntegrationResponse)
    (t : HostState) : Prop :=
  ∀ identity, response = .revoked identity → RevokeAdmitted request t ∧ Stopped request t

theorem RevokeAdmitted.withEvidence {proof} (h : RevokeAdmitted request s)
    (hpr : proof.request = request) :
    RevokeAdmitted request { s with evidence := some proof } := by
  refine ⟨h.source, h.epoch, ?_⟩
  intro p hp _
  cases hp
  rw [hpr]

theorem RevokeAdmitted.withRecord {r} (h : RevokeAdmitted request s)
    (hep : r.snapshot.epoch = request.epoch) : RevokeAdmitted request (s.setRecord r) := by
  refine ⟨h.source, ?_, h.evidence⟩
  intro r' hr' _
  cases hr'
  exact hep.le

theorem saveRevokeEvidence_spec {proof}
    (h : C { s with evidence := some proof } ∧ R () { s with evidence := some proof }) :
    Spec (saveRevokeEvidence codec proof) s C (Ok R) := by
  unfold saveRevokeEvidence
  simp only [ok_bind, ok_lift, ok_write]
  exact fun _ _ => h

theorem revokeBeforePhase_spec {evidence} (h₀ : Writes codec git request s₀ s)
    (hv : request.validate codec = .ok ()) (ht : request.taskId = s.info.taskId)
    (hac : request.action = .revoke tombstone) (ha : RevokeAdmitted request s) :
    Spec (revokeBeforePhase codec request s.record evidence) s (Writes codec git request s₀)
      (Ok fun response t => StopAnswer request response t ∧ response.offered = none) := by
  unfold revokeBeforePhase
  simp only [ok_bind, ok_require, ok_get]
  intro hre hp
  have hf := h₀.tail (.evidence _ hac ha hv ht hp)
  refine saveRevokeEvidence_spec ⟨hf, ?_⟩
  intro _
  have hs := hf.tail (.evidence (HostRevokeEvidence.acknowledge _ s.status)
    hac (ha.withEvidence hp) hv ht hp)
  refine saveRevokeEvidence_spec ⟨hs, ok_pure.mpr ⟨fun _ _ => ?_, rfl⟩⟩
  refine ⟨(ha.withEvidence hp).withEvidence hp, .beforePhase rfl hp ?_⟩
  intro r hr
  replace hr : s.record = some r := hr
  simpa [hr] using hre

def stopping (record : IntegrationRecord) (revision : Nat) (tombstone : IntegrationTombstone) :
    IntegrationRecord :=
  { record with
    snapshot := { record.snapshot with revision := revision }
    tombstone := some tombstone }

theorem acknowledgeStop_retired (r : IntegrationRecord) (tombstone : IntegrationTombstone) :
    (acknowledgeStop r tombstone).retired = true := by
  unfold IntegrationRecord.retired acknowledgeStop
  cases r.pushIntent <;> simp

theorem revokeRecord_spec (h₀ : Writes codec git request s₀ s)
    (ha : request.action = .revoke tombstone) (had : RevokeAdmitted request s)
    (hr : s.record = some r) (hof : r.Of request) :
    Spec (revokeRecord codec git request tombstone r) s (Writes codec git request s₀)
      (Ok fun response t => StopAnswer request response t ∧ response.offered = none) := by
  unfold revokeRecord
  simp only [ok_bind, ok_require, ok_get, ok_lift]
  intro _
  have hm : IntegrationRecord.SameCycle { r with tombstone := some tombstone }
      (stopping r request.revision tombstone) := {}
  have hof' : (stopping r request.revision tombstone).Of request := hof
  have ha' := had.withRecord (r := stopping r request.revision tombstone) hof.2
  refine save_spec fun hv => ?_
  have hs := h₀.tail (.save hv (.stop _ ha had hr hof hm rfl rfl))
  refine ⟨hs, ?_⟩
  intro _ receipt _
  cases receipt with
  | some receipt =>
    simp only [ok_bind, ok_pure]
    exact save_spec fun hv => ⟨hs.tail (.save hv (.receipt receipt rfl hof')), nofun, rfl⟩
  | none =>
    have hac : Spec (save codec (acknowledgeStop (stopping r request.revision tombstone)
          tombstone) >>= fun _ => pure (.revoked (.forRequest request)))
        (s.setRecord (stopping r request.revision tombstone))
        (Writes codec git request s₀)
        (Ok fun response t => StopAnswer request response t ∧ response.offered = none) := by
      simp only [ok_bind, ok_pure]
      refine save_spec fun hv => ⟨hs.tail (.save hv ?_), fun _ _ => ?_, rfl⟩
      · exact .stop { tombstone with acknowledged := true } ha ha' rfl hof'
          {} rfl rfl
      · exact ⟨ha'.withRecord hof.2, .phase rfl hof (acknowledgeStop_retired _ _) rfl⟩
    cases hl : r.candidates.getLast? with
    | none => simpa only [stopping, hl, pure_bind] using hac
    | some c =>
      simp only [ok_bind, ok_lift]
      intro _ _
      simpa only [stopping, ok_bind] using hac

theorem revokeIdentity_spec (hst : ∀ r, s.record = some r → r.validate codec = .ok ())
    (h : (∃ id source, request.integrationId = some id ∧ s.latestOrdinarySource = some source ∧
        id.source = source) →
      (∀ r, s.record = some r → some r.snapshot.integrationId = request.integrationId →
        r.snapshot.epoch ≤ request.epoch) → R () s) :
    Spec (revokeIdentity codec policy request s.record) s C (Ok R) := by
  unfold revokeIdentity
  simp only [ok_bind, ok_get]
  cases hs : s.latestOrdinarySource with
  | none => exact ok_fail
  | some source =>
    simp only
    split
    · rename_i record hre
      obtain ⟨hr, hid⟩ := Option.filter_eq_some_iff.mp hre
      simp only [ok_require]
      rintro ⟨ht, hep⟩
      replace hid : some record.snapshot.integrationId = request.integrationId := by
        simpa using hid
      refine h ⟨_, source, hid.symm, hs, ?_⟩ ?_
      · rw [((IntegrationRecord.validate_eq_ok codec).mp (hst record hr)).id]
        exact ht
      · intro r hr' _
        cases hr.symm.trans hr'
        exact hep
    · rename_i hn
      cases s.status.headOid with
      | none => exact ok_fail
      | some head =>
        simp only [ok_bind, ok_lift, ok_require]
        intro key _ id hid hna
        obtain ⟨-, rfl⟩ := (IntegrationId.derive_eq_ok codec id).mp hid
        refine h ⟨_, source, hna.symm, hs, rfl⟩ ?_
        intro r hr hid'
        have := Option.filter_eq_none_iff.mp hn r hr
        exact absurd hid' (by simpa using this)

theorem revoke_spec (h₀ : Writes codec git request s₀ s) (hv : request.validate codec = .ok ())
    (ht : request.taskId = s.info.taskId) (ha : request.action = .revoke tombstone) :
    Spec (revoke codec git policy request tombstone) s (Writes codec git request s₀)
      (Ok fun response t => StopAnswer request response t ∧ response.offered = none) := by
  unfold revoke
  simp only [ok_bind]
  refine load_spec fun hs => revokeIdentity_spec hs fun hso hep =>
    revokeEvidence_spec ?_
  simp only [ok_require]
  intro hev
  have had : RevokeAdmitted request s := by
    refine ⟨hso, hep, ?_⟩
    intro p hp hid
    rw [hp] at hev
    simpa [hid] using hev
  split
  · exact revokeBeforePhase_spec h₀ hv ht ha had
  · rename_i record hre
    obtain ⟨hr, hn⟩ := Option.filter_eq_some_iff.mp hre
    have hof : record.Of request := by simpa [IntegrationRecord.Of] using hn
    exact revokeRecord_spec h₀ ha had hr hof

/-! ## One request -/

theorem armPolicy_spec (h : ∀ t, Writes codec git request s t → t.info = s.info → C t ∧ R () t) :
    Spec (armPolicy codec policy) s C (Ok R) := by
  unfold armPolicy
  simp only [ok_bind, ok_get]
  cases hp : s.policy with
  | some old =>
    simp only [ok_require]
    exact fun _ => (h s .refl rfl).2
  | none =>
    simp only [ok_bind, ok_lift, ok_write]
    intro _ _
    exact h _ (.single (HostWrite.arm policy hp)) rfl

theorem requestPolicy_spec {R} (h : ∀ policy,
      (∀ step record, request.action = .step step record → policy = record.policy) → R policy s) :
    Spec (requestPolicy request) s C (Ok R) := by
  unfold requestPolicy
  cases ha : request.action with
  | arm policy => exact ok_pure.mpr (h _ (by simp [ha]))
  | step step record =>
    refine ok_pure.mpr (h _ ?_)
    intro _ _ heq
    cases ha.symm.trans heq
    rfl
  | read =>
    simp only [ok_bind, ok_get]
    cases s.policy with
    | none => exact ok_fail
    | some policy => exact ok_pure.mpr (h policy (by simp [ha]))
  | revoke tombstone =>
    simp only [ok_bind, ok_get]
    cases s.policy with
    | none => exact ok_fail
    | some policy => exact ok_pure.mpr (h policy (by simp [ha]))

theorem admitTask_spec
    (h : request.taskId = s.info.taskId ∧ policy.projectId = s.info.projectId → R () s) :
    Spec (admitTask codec git policy request) s C (Ok R) := by
  unfold admitTask
  simp only [ok_bind, ok_require, ok_get, ok_lift]
  intro _ ht _ _ key _ _ _
  split
  · exact ok_require.mpr fun _ => h ht
  · exact ok_pure.mpr (h ht)

/-- What an answer says of the state it leaves. -/
structure Answered (git : HostOracle) (request : HostIntegrationRequest)
    (response : HostIntegrationResponse) (t : HostState) : Prop where
  stop : ∀ tombstone, request.action = .revoke tombstone → StopAnswer request response t
  step : response.offered = none ∨
    ∃ step record, request.action = .step step record ∧ record.Of request
  offers : Offers git request response t

/-- **What a request writes.** Wherever it is cut off, it got there by its writes; a
stop that it confirms is stored, and so is a candidate it answers with. -/
theorem execute_spec (s : HostState) :
    Spec (execute codec git request) s (Writes codec git request s)
      (Ok (Answered git request)) := by
  unfold execute
  simp only [ok_bind, ok_lift]
  intro _ hr
  refine requestPolicy_spec fun policy hp => admitTask_spec fun hta =>
    armPolicy_spec fun t ht hin => ⟨ht, ?_⟩
  rw [← hin] at hta
  cases ha : request.action with
  | read =>
    simp only [ok_bind, ok_lift, ok_pure]
    exact (readStep_spec ht).imp fun _ _ h _ _ => ⟨by simp [ha], .inl h, offers_none h⟩
  | arm policy =>
    simp only [ok_bind, ok_lift, ok_pure]
    exact fun _ _ => ⟨by simp [ha], .inl rfl, offers_none rfl⟩
  | step step record =>
    simp only [ok_bind, ok_lift, ok_pure]
    refine (runStep_spec ht hr (hp step record ha ▸ hta) ha).imp fun _ _ h _ _ =>
      ⟨by simp [ha], ?_, h⟩
    exact .inr ⟨step, record, ha, (validate_step hr ha).2.2⟩
  | revoke tombstone =>
    simp only [ok_bind, ok_lift, ok_pure]
    exact (revoke_spec ht hr hta.1 ha).imp fun _ _ h _ _ =>
      ⟨fun _ _ => h.1, .inl h.2, offers_none h.2⟩

end

end MacWorker.Integration
