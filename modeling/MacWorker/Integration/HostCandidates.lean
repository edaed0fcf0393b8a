import MacWorker.Integration.HostWrites

/-! # The candidates a host keeps

Within one epoch of a cycle the host numbers its candidates, appends a candidate when
the target has moved, and works on the last one only. Git answers are inputs, but Git
itself is a function of contents: the same merge leaves the same conflicts, and the
same commit has the same name. Then a candidate only grows, and an answer that carries
a candidate carries the last one as it is stored. -/
namespace MacWorker.Integration
open Fallible Durable Relation List

/-! ## How a candidate grows -/

/-- Git as a function of contents, over every oracle that a run may consult. -/
structure ContentAddressed (oracles : HostOracle → Prop) : Prop where
  merges : ∀ git git', oracles git → oracles git' → ∀ c c' tree tree' paths paths',
    c.SameInputs c' → git.mergeTree c = .ok (tree, paths) →
    git'.mergeTree c' = .ok (tree', paths') → paths = paths'
  commits : ∀ git git', oracles git → oracles git' → ∀ c c' oid oid', c.SameInputs c' →
    c.treeOid = c'.treeOid → git.commitTree c = .ok oid → git'.commitTree c' = .ok oid' →
    oid = oid'

section
variable (oracles : HostOracle → Prop)

namespace IntegrationCandidate

structure Grows (c c' : IntegrationCandidate) : Prop where
  inputs : c.SameInputs c'
  tree : ∀ tree, c.treeOid = some tree → c'.treeOid = some tree
  merge : ∀ oid, c.mergeOid = some oid → c'.mergeOid = some oid
  paths : c'.conflictPaths = c.conflictPaths ∨ (c.mergeOid = none ∧ c'.FromMerge oracles)

variable {oracles} {c c' c'' : IntegrationCandidate}

theorem Grows.refl (c : IntegrationCandidate) : c.Grows oracles c :=
  ⟨.refl c, fun _ h => h, fun _ h => h, .inl rfl⟩

theorem FromMerge.same_paths (h : c.FromMerge oracles) (hin : c.SameInputs c')
    (hp : c'.conflictPaths = c.conflictPaths) : c'.FromMerge oracles := by
  obtain ⟨git, c₀, tree, hg, hs, hm⟩ := h
  exact ⟨git, c₀, tree, hg, hs.trans hin, by rw [hp]; exact hm⟩

theorem Grows.trans (h : c.Grows oracles c') (h' : c'.Grows oracles c'') : c.Grows oracles c'' where
  inputs := h.inputs.trans h'.inputs
  tree tree ht := h'.tree tree (h.tree tree ht)
  merge oid hoi := h'.merge oid (h.merge oid hoi)
  paths := by
    rcases h'.paths with hs | ⟨hn, hm⟩
    · rcases h.paths with hs' | ⟨hn, hm⟩
      · exact .inl (hs.trans hs')
      · exact .inr ⟨hn, hm.same_paths h'.inputs hs⟩
    · refine .inr ⟨?_, hm⟩
      cases hoi : c.mergeOid with
      | none => rfl
      | some oid =>
        rw [h.merge oid hoi] at hn
        cases hn

theorem Improves.grows {git} (hco : ContentAddressed oracles) (hg : oracles git)
    (hc : ∀ oid, c.mergeOid = some oid → c.FromCommit oracles oid) (h : c.Improves git c') :
    c.Grows oracles c' ∧ ∀ oid, c'.mergeOid = some oid → c'.FromCommit oracles oid := by
  have hin : c.SameInputs c' := h.same
  refine ⟨⟨hin, h.tree, ?_, h.paths.imp_right fun ⟨hn, _, c₀, tree, he, hm⟩ =>
    ⟨hn, _, c₀, tree, he ▸ hg, hm⟩⟩, ?_⟩
  · intro oid ho
    rcases h.merge with hs | ⟨oid', ho', _, c₁, tree, rfl, hi, ht₁, ht, hoid'⟩
    · exact hs.trans ho
    · obtain ⟨git', c₀, tree', hg', hi', ht₀, ht', hoid⟩ := hc oid ho
      cases ht.symm.trans (h.tree tree' ht')
      rw [ho', hco.commits _ _ hg hg' c₁ c₀ _ _ (hi.trans (hin.symm.trans hi'.symm))
        (ht₁.trans ht₀.symm) hoid' hoid]
  · intro oid ho
    rcases h.merge with hs | ⟨oid', ho', _, c₁, tree, rfl, hm⟩
    · obtain ⟨git', c₀, tree', hg', hi', ht₀, ht', hoid⟩ := hc oid (hs.symm.trans ho)
      exact ⟨git', c₀, tree', hg', hi'.trans hin, ht₀, h.tree tree' ht', hoid⟩
    · cases ho.symm.trans ho'
      exact ⟨_, c₁, tree, hg, hm⟩

end IntegrationCandidate

/-! ## The candidates of one epoch -/

/-- An epoch of a cycle, with the source it integrates. -/
structure CycleEpoch where
  id : IntegrationId
  epoch : Nat
  source : BaseOid
  identity : GitIdentity

variable (k : CycleEpoch)

structure IntegrationRecord.InEpoch (r : IntegrationRecord) : Prop where
  id : r.snapshot.integrationId = k.id
  epoch : r.snapshot.epoch = k.epoch
  source : r.snapshot.sourceHead = k.source
  identity : r.gitIdentity = k.identity

def HostState.candidatesIn (s : HostState) : Option (List IntegrationCandidate) :=
  (s.record.filter fun r => r.snapshot.integrationId == k.id && r.snapshot.epoch == k.epoch).map
    (·.candidates)

/-- What the host knows of the candidate at a position. -/
structure SoundCandidate (i : Nat) (c : IntegrationCandidate) : Prop where
  id : c.id = ⟨k.id, k.epoch, i + 1⟩
  source : c.sourceHead = k.source
  identity : c.identity = k.identity
  committed : ∀ oid, c.mergeOid = some oid → c.FromCommit oracles oid

def SoundCandidates (l : List IntegrationCandidate) : Prop :=
  ∀ i c, l[i]? = some c → SoundCandidate oracles k i c

/-- Every candidate is still there, perhaps with more worked out. -/
def Grown (l l' : List IntegrationCandidate) : Prop :=
  ∀ c ∈ l, ∃ c' ∈ l', c.Grows oracles c'

variable {oracles k} {s : HostState} {r : IntegrationRecord}
  {l l' before : List IntegrationCandidate} {c c' : IntegrationCandidate}

theorem candidatesIn_of (hr : s.record = some r) (hid : r.snapshot.integrationId = k.id)
    (hep : r.snapshot.epoch = k.epoch) : s.candidatesIn k = some r.candidates := by
  unfold HostState.candidatesIn
  simp [hr, hid, hep]

theorem candidatesIn_eq_some (h : s.candidatesIn k = some l) :
    ∃ r, s.record = some r ∧ r.snapshot.integrationId = k.id ∧ r.snapshot.epoch = k.epoch ∧
      r.candidates = l := by
  unfold HostState.candidatesIn at h
  obtain ⟨r, hr, hl⟩ := Option.map_eq_some_iff.mp h
  obtain ⟨hr, hof⟩ := Option.filter_eq_some_iff.mp hr
  have hof : r.snapshot.integrationId = k.id ∧ r.snapshot.epoch = k.epoch := by simpa using hof
  exact ⟨r, hr, hof.1, hof.2, hl⟩

theorem Grown.refl (l : List IntegrationCandidate) : Grown oracles l l :=
  fun c hc => ⟨c, hc, .refl c⟩

theorem Grown.trans {l''} (h : Grown oracles l l') (h' : Grown oracles l' l'') :
    Grown oracles l l'' := by
  intro c hc
  obtain ⟨c', hc', hg⟩ := h c hc
  obtain ⟨c'', hc'', hg'⟩ := h' c' hc'
  exact ⟨c'', hc'', hg.trans hg'⟩

theorem soundCandidates_nil : SoundCandidates oracles k [] := by
  intro i c h
  simp at h

theorem SoundCandidates.append (h : SoundCandidates oracles k l)
    (hc : SoundCandidate oracles k l.length c) : SoundCandidates oracles k (l ++ [c]) := by
  intro i c' hi
  rcases Nat.lt_trichotomy i l.length with hlt | rfl | hgt
  · rw [getElem?_append_left hlt] at hi
    exact h i c' hi
  · rw [getElem?_concat_length] at hi
    cases hi
    exact hc
  · rw [getElem?_eq_none (by simp; omega)] at hi
    cases hi

section
variable (h : SoundCandidates oracles k (before ++ [c]))
include h

theorem SoundCandidates.last :
    SoundCandidate oracles k before.length c := h _ _ getElem?_concat_length

theorem SoundCandidates.init : SoundCandidates oracles k before := by
  intro i c' hi
  refine h i c' ?_
  have hlt := (List.getElem?_eq_some_iff.mp hi).1
  rw [getElem?_append_left hlt]
  exact hi

theorem SoundCandidates.improve {git} (hco : ContentAddressed oracles) (hg : oracles git)
    (hc : c.Improves git c') :
    SoundCandidates oracles k (before ++ [c']) ∧ Grown oracles (before ++ [c])
      (before ++ [c']) := by
  have hl := h.last
  obtain ⟨hgr, hcm⟩ := hc.grows hco hg hl.committed
  have hin := hgr.inputs
  refine ⟨h.init.append ⟨?_, ?_, ?_, hcm⟩, ?_⟩
  · rw [hin]; exact hl.id
  · rw [hin]; exact hl.source
  · rw [hin]; exact hl.identity
  · intro x hx
    rcases mem_append.mp hx with hx | hx
    · exact ⟨x, mem_append_left _ hx, .refl x⟩
    · obtain rfl := mem_singleton.mp hx
      exact ⟨c', mem_append_right _ (mem_singleton.mpr rfl), hgr⟩

end

theorem IntegrationRecord.InEpoch.same {r'} (h : r.InEpoch k) (hs : r.SameSource r') :
    r'.InEpoch k where
  id := hs.integrationId.trans h.id
  epoch := hs.epoch.trans h.epoch
  source := hs.sourceHead.trans h.source
  identity := hs.gitIdentity.trans h.identity

/-! ## What one write does to them -/

section
variable (oracles k)

/-- The host's candidates of the epoch are numbered and justified. -/
def SoundHost (s : HostState) : Prop :=
  ∀ r, s.record = some r → r.snapshot.integrationId = k.id → r.snapshot.epoch = k.epoch →
    r.InEpoch k ∧ SoundCandidates oracles k r.candidates

/-- The candidates of the epoch are still there after a request. -/
structure Follows (s t : HostState) : Prop where
  sound : SoundHost oracles k t
  grown : ∀ l, s.candidatesIn k = some l → ∃ l', t.candidatesIn k = some l' ∧ Grown oracles l l'

end

variable {codec : Codec} {git : HostOracle} {request : HostIntegrationRequest}
  {r' : IntegrationRecord} {step : IntegrationStep} {t : HostState}

theorem SoundHost.candidates (h : SoundHost oracles k s) (hl : s.candidatesIn k = some l) :
    SoundCandidates oracles k l := by
  obtain ⟨r, hr, hid, hep, rfl⟩ := candidatesIn_eq_some hl
  exact (h r hr hid hep).2

theorem Follows.of_record (hs : SoundHost oracles k s) (h : t.record = s.record) :
    Follows oracles k s t := by
  refine ⟨fun r hr => hs r (h.symm.trans hr), fun l hl => ⟨l, ?_, .refl l⟩⟩
  rw [HostState.candidatesIn, h]
  exact hl

theorem Follows.trans {u} (h : Follows oracles k s t) (h' : Follows oracles k t u) :
    Follows oracles k s u := by
  refine ⟨h'.sound, ?_⟩
  intro l hl
  obtain ⟨l', hl', hg⟩ := h.grown l hl
  obtain ⟨l'', hl'', hg'⟩ := h'.grown l' hl'
  exact ⟨l'', hl'', hg.trans hg'⟩

theorem Follows.of_same (hs : SoundHost oracles k s) (hr : s.record = some r)
    (hsame : r.SameSource r') (h : r.InEpoch k → SoundCandidates oracles k r.candidates →
      SoundCandidates oracles k r'.candidates ∧ Grown oracles r.candidates r'.candidates) :
    Follows oracles k s (s.setRecord r') := by
  refine ⟨?_, ?_⟩
  · rintro _ ⟨⟩ hid hep
    obtain ⟨hin, hso⟩ := hs r hr (hsame.integrationId.symm.trans hid) (hsame.epoch.symm.trans hep)
    exact ⟨hin.same hsame, (h hin hso).1⟩
  · intro l hl
    obtain ⟨_, hr', hid, hep, rfl⟩ := candidatesIn_eq_some hl
    cases hr.symm.trans hr'
    obtain ⟨hin, hso⟩ := hs r hr hid hep
    exact ⟨_, candidatesIn_of rfl (hin.same hsame).id (hin.same hsame).epoch, (h hin hso).2⟩

theorem Follows.of_kept (hs : SoundHost oracles k s) (hr : s.record = some r)
    (hsame : r.SameSource r') (hc : r'.candidates = r.candidates) :
    Follows oracles k s (s.setRecord r') := by
  refine .of_same hs hr hsame fun _ hso => ?_
  rw [hc]
  exact ⟨hso, .refl _⟩

/-- A request for a step of this epoch, about no candidate the host does not know of. -/
def StepsIn (k : CycleEpoch) (request : HostIntegrationRequest) (s : HostState) : Prop :=
  ∀ step record, request.action = .step step record →
    record.InEpoch k ∧ (s.candidatesIn k = none → record.candidates = [])

theorem Follows.of_succession {record next} (hs : SoundHost oracles k s) (hep : record.InEpoch k)
    (hf : s.candidatesIn k = none → record.candidates = [])
    (h : Succession record step s.record next) :
    Follows oracles k s (s.setRecord (refresh next)) := by
  have hin := hep.same (h.sameSource.trans (refresh_sameCycle next).toSameSource)
  suffices hne : next.candidates = (s.candidatesIn k).getD [] by
    rw [← refresh_candidates] at hne
    refine ⟨?_, fun l hl => ⟨_, candidatesIn_of rfl hin.id hin.epoch, ?_⟩⟩
    · rintro _ ⟨⟩ - -
      rw [hne]
      cases hl : s.candidatesIn k with
      | none => exact ⟨hin, soundCandidates_nil⟩
      | some l => exact ⟨hin, hs.candidates hl⟩
    · rw [hne, hl]
      exact .refl _
  generalize hol : s.record = old at h
  cases h with
  | first _ hc =>
    have hn : s.candidatesIn k = none := by simp [HostState.candidatesIn, hol]
    rw [hc, hf hn, hn]
    rfl
  | continued _ _ hid he' _ _ hc =>
    rw [hc, candidatesIn_of hol (hid.trans hep.id) (he'.trans hep.epoch)]
    rfl
  | succeeded _ _ _ _ he' hc =>
    have hn : s.candidatesIn k = none := by
      cases hl : s.candidatesIn k with
      | none => rfl
      | some l =>
        obtain ⟨r, hr, hid, hre, -⟩ := candidatesIn_eq_some hl
        cases hol.symm.trans hr
        have := he' (hid.trans hep.id.symm)
        rw [hre, hep.epoch] at this
        omega
    rw [hc, hn]
    rfl

/-- The candidate an answer carries is the last one that is stored. A candidate that is
still to be resolved comes from a merge. -/
def Offered (oracles : HostOracle → Prop) (k : CycleEpoch) (response : HostIntegrationResponse)
    (t : HostState) : Prop :=
  ∀ c, response.offered = some c → (c.mergeOid = none → c.FromMerge oracles) ∧
    ∃ before, t.candidatesIn k = some (before ++ [c])

section
variable (hco : ContentAddressed oracles) (hg : oracles git) (hs : SoundHost oracles k s)
include hco hg hs

theorem Follows.of_advances (hr : s.record = some r) (hsame : r.SameSource r')
    (h : r.Advances git r') : Follows oracles k s (s.setRecord r') := by
  cases h with
  | kept hc => exact .of_kept hs hr hsame hc
  | refined hold hnew hi =>
    refine .of_same hs hr hsame fun _ hso => ?_
    rw [hold] at hso ⊢
    rw [hnew]
    exact hso.improve hco hg hi
  | appended hnew _ hid hf =>
    refine .of_same hs hr hsame fun hin hso => ?_
    obtain ⟨hsource, hidentity, hn⟩ := hf
    rw [hnew]
    refine ⟨hso.append ⟨?_, hsource.trans hin.source, hidentity.trans hin.identity, ?_⟩,
      fun x hx => ⟨x, mem_append_left _ hx, .refl x⟩⟩
    · rw [hid, hin.id, hin.epoch]
    · intro oid hoi
      cases hn.symm.trans hoi

theorem HostWrite.follows (hst : StepsIn k request s) (h : HostWrite codec git request s t) :
    Follows oracles k s t := by
  cases h with
  | arm | evidence | accept | push | head => exact .of_record hs rfl
  | save _ hw =>
    cases hw with
    | stop _ _ _ hr _ hsame hc => exact .of_kept hs hr { hsame.toSameSource with } hc
    | start ha _ hn =>
      obtain ⟨hep, hf⟩ := hst _ _ ha
      exact .of_succession hs hep hf (succeed_ok hn)
    | work hr _ hsame ha => exact .of_advances hco hg hs hr hsame.toSameSource ha
    | verify hr _ hsame hold hnew hi =>
      refine .of_same hs hr hsame.toSameSource fun _ hso => ?_
      rw [hold] at hso ⊢
      rw [hnew]
      exact hso.improve hco hg hi

/-- Every write keeps the candidates, so a request does, wherever it is cut off. -/
theorem Writes.follows (hst : StepsIn k request s) (h : Writes codec git request s t) :
    Follows oracles k s t := by
  induction h with
  | refl => exact .of_record hs rfl
  | tail _ hw ih =>
    refine ih.trans (hw.follows hco hg ih.sound ?_)
    intro step record ha
    obtain ⟨hep, hf⟩ := hst step record ha
    refine ⟨hep, fun hn => hf ?_⟩
    cases hl : s.candidatesIn k with
    | none => rfl
    | some l =>
      obtain ⟨l', hl', -⟩ := ih.grown l hl
      cases hn.symm.trans hl'

/-- **The candidates over one request.** Wherever it is cut off, the candidates of the
epoch are still there; a candidate it answers with is the last one stored. -/
theorem execute_offers (hst : StepsIn k request s) :
    Spec (execute codec git request) s (Follows oracles k s) (Ok (Offered oracles k)) := by
  refine ((execute_spec s).weaken fun t => Writes.follows hco hg hs hst).imp fun response t h => ?_
  intro c hc
  obtain ⟨hm, r, hr, hof, hl⟩ := h.offers c hc
  refine ⟨fun hn => ?_, ?_⟩
  · obtain ⟨_, c₀, tree, rfl, hmerge⟩ := hm hn
    exact ⟨_, c₀, tree, hg, hmerge⟩
  · rcases h.step with hn | ⟨step, record, ha, hid, hep⟩
    · cases hn.symm.trans hc
    · have hin := (hst step record ha).1
      obtain ⟨before, hb⟩ := getLast_split hl
      refine ⟨before, hb ▸ candidatesIn_of hr ?_ ?_⟩
      · exact (Option.some.inj (hof.1.trans hid.symm)).trans hin.id
      · exact (hof.2.trans hep.symm).trans hin.epoch

end

end

end MacWorker.Integration
