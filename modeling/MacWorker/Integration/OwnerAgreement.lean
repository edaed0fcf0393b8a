import MacWorker.Integration.Agreement

/-! # The owner keeps its agreement with the host

An owner drives its cycle against a host that runs the host's service: each question is
executed with some Git, may be cut off anywhere, and its answer may be lost; between
questions the task of the host goes on. The owner itself may be cut off after any write.
Every function of the owner keeps the two in agreement. -/
namespace MacWorker.Integration
open Fallible Durable Relation
open Dag (IntegrationStatus IntegrationCode)

/-! ## An honest host -/

/-- How a host that runs the service takes a request. -/
inductive HostAnswers (codec : Codec) (oracles : HostOracle → Prop)
    (request : HostIntegrationRequest) (s : HostState) :
    HostState × Checked HostIntegrationResponse → Prop
  | replied {git : HostOracle} {s' : HostState} (hgit : oracles git)
      (hmoves : ReflTransGen TaskMove s s') :
    HostAnswers codec oracles request s
      ((execute codec git request).final s', (execute codec git request).answer s')
  | lost {git : HostOracle} {s' t : HostState} (hgit : oracles git)
      (hmoves : ReflTransGen TaskMove s s') (ht : t ∈ (execute codec git request).exposed s')
      (e : IntegrationError) :
    HostAnswers codec oracles request s (t, .error e)

def HonestHost (codec : Codec) (oracles : HostOracle → Prop) (env : OwnerEnv HostState) : Prop :=
  ∀ n request s, HostAnswers codec oracles request s (env.host n request s)

section
variable {codec : Codec} {oracles : HostOracle → Prop} {k : CycleEpoch} {s t : HostState}
  {request : HostIntegrationRequest} {answer : Checked HostIntegrationResponse}

theorem record_moves (h : ReflTransGen TaskMove s t) : t.record = s.record := by
  induction h with
  | refl => rfl
  | tail _ hm ih =>
    cases hm
    exact ih

/-- Whatever becomes of a request, the host's candidates are still there; an answer
carries the last of them. -/
theorem HostAnswers.follows (hcontent : ContentAddressed oracles)
    (h : HostAnswers codec oracles request s (t, answer)) (hs : SoundHost oracles k s)
    (hst : StepsIn k request s) :
    Follows oracles k s t ∧ ∀ response, answer = .ok response → Offered oracles k response t := by
  have hre : ∀ git s', oracles git → ReflTransGen TaskMove s s' → Follows oracles k s s' ∧
      Spec (execute codec git request) s' (Follows oracles k s') (Ok (Offered oracles k)) := by
    intro git s' hg hm
    have hsa := record_moves hm
    have hf := Follows.of_record hs hsa
    refine ⟨hf, execute_offers hcontent hg hf.sound ?_⟩
    intro step record ha
    obtain ⟨hep, hfi⟩ := hst step record ha
    refine ⟨hep, fun hn => hfi ?_⟩
    rw [← hn, HostState.candidatesIn, HostState.candidatesIn, hsa]
  cases h with
  | replied hg hm =>
    obtain ⟨hf, hsp⟩ := hre _ _ hg hm
    refine ⟨hf.trans (hsp.exposed (.of_record hf.sound rfl) _ (Prog.final_mem_exposed _ _)), ?_⟩
    intro response hr
    exact hsp.ok hr
  | lost hg hm ht e =>
    obtain ⟨hf, hsp⟩ := hre _ _ hg hm
    refine ⟨hf.trans (hsp.exposed (.of_record hf.sound rfl) _ ht), ?_⟩
    intro response hr
    cases hr

end

/-! ## Questions and files -/

section
variable {η α : Type} {w : OwnerWorld η} {C : OwnerWorld η → Prop} {R : α → OwnerWorld η → Prop}

theorem ok_ask {question} :
    Spec (ask question) w C (Ok R) ↔ C w.tick ∧ R (question w.clock) w.tick := by
  unfold ask
  rw [ok_bind, ok_get, ok_bind, ok_write, ok_pure]

theorem ok_askChecked {question} : Spec (askChecked question) w C (Ok R) ↔
      C w.tick ∧ ∀ a, question w.clock = .ok a → R a w.tick := by
  unfold askChecked
  rw [ok_bind, ok_ask, ok_lift]

theorem ok_consult {read} : Spec (consult read) w C (Ok R) ↔ ∀ a, read w = .ok a → R a w := by
  unfold consult
  rw [ok_bind, ok_get, ok_lift]

theorem ok_discard {m : OwnerM η α} {R : Unit → OwnerWorld η → Prop} :
    Spec (discard m) w C (Ok R) ↔ Spec m w C (Ok fun _ t => R () t) := by
  change Spec (m >>= fun _ => pure ()) w C (Ok R) ↔ _
  rw [ok_bind]
  simp only [ok_pure]

end

section
variable {codec : Codec} {env : OwnerEnv HostState} {oracles : HostOracle → Prop}
  {k : CycleEpoch} {w : OwnerWorld HostState} {r : IntegrationRecord}

theorem load_eq_some (h : w.load codec = .ok (some r)) : w.record = some r := by
  unfold OwnerWorld.load at h
  cases hr : w.record with
  | none => rw [hr] at h; cases h
  | some record =>
    rw [hr] at h
    obtain ⟨-, h⟩ := of_then h
    obtain ⟨-, h⟩ := of_then h
    cases h
    rfl

theorem loaded_eq_ok (h : w.loaded codec = .ok r) : w.record = some r := by
  obtain ⟨found, hf, h⟩ := of_bind h
  cases found with
  | none => cases h
  | some record =>
    cases h
    exact load_eq_some hf

/-! ## Functions that only save

A program that answers with a record, with whether to go on and a record, or with
something else, over worlds in agreement. -/

section
variable (oracles k)

def Returns (m : OwnerM HostState IntegrationRecord) (w : OwnerWorld HostState) : Prop :=
  Spec m w (Joint oracles k) (Ok fun r t => Holds oracles k t r)

def Tells (m : OwnerM HostState (Bool × IntegrationRecord)) (w : OwnerWorld HostState) : Prop :=
  Spec m w (Joint oracles k) (Ok fun p t => Holds oracles k t p.2)

def Stays {α : Type} (m : OwnerM HostState α) (w : OwnerWorld HostState) : Prop :=
  Spec m w (Joint oracles k) (Ok fun _ t => Joint oracles k t)

end

theorem stays_snapshot {m} (h : Returns oracles k m w) :
    Stays oracles k (m >>= fun record => pure record.snapshot) w :=
  ok_bind.mpr (h.imp fun _ _ h => ok_pure.mpr h.joint)

/-- The task goes on only on the answer it waits for; on the other it returns the record. -/
theorem Tells.goOn {m f} (answer : Bool) (h : Tells oracles k m w)
    (hstop : ∀ r, f (!answer, r) = pure r.snapshot) (hgo : ∀ r t, Holds oracles k t r →
      Spec (f (answer, r)) t (Joint oracles k) (Ok fun _ t => Joint oracles k t)) :
    Stays oracles k (m >>= f) w := by
  refine ok_bind.mpr (h.imp ?_)
  rintro ⟨told, r⟩ t ht
  rcases eq_or_ne told answer with rfl | hne
  · exact hgo r t ht
  · rw [Bool.eq_not_of_ne hne, hstop r]
    exact ok_pure.mpr ht.joint

theorem returns_loaded (h : Joint oracles k w) :
    Returns oracles k (consult fun w => w.loaded codec) w :=
  ok_consult.mpr fun _ hr => h.holds (loaded_eq_ok hr)

variable {reservation : TargetReservation}

theorem spec_releaseReservation_ok {C R} (h : R () w)
    (hs : ∀ l, C (w.setReservations l) ∧ R () (w.setReservations l)) :
    Spec (releaseReservation codec reservation) w C (Ok R) := by
  unfold releaseReservation
  simp only [ok_bind, ok_lift, ok_get]
  intro _ _
  split
  · exact ok_pure.mpr h
  · simp only [ok_bind, ok_require, ok_write]
    exact fun _ => hs _

theorem stays_releaseReservation (h : Joint oracles k w) :
    Stays oracles k (releaseReservation codec reservation) w :=
  spec_releaseReservation_ok h fun _ => ⟨h.setReservations _, h.setReservations _⟩

theorem resumed_core (r : IntegrationRecord) (state : IntegrationStatus) (now : Nat) :
    (resumed r state now).core = r.core := by
  unfold resumed IntegrationRecord.core
  cases r.remainingBackoffMillis <;> rfl

section
variable {code phase} (h : Holds oracles k w r)
include h

theorem returns_persistRecord : Returns oracles k (persistRecord codec env r) w := by
  unfold Returns persistRecord
  simp only [ok_bind, ok_lift, ok_ask, ok_consult]
  intro revision _
  refine ⟨h.joint.tick, ?_⟩
  intro replaced hr
  cases replaced with
  | false => exact ok_fail
  | true =>
    -- Only a record that passes validation is stored.
    obtain ⟨hv, -⟩ := of_then hr
    have ha := ((IntegrationRecord.validate_eq_ok codec).mp hv).snapshot.attempts
    have hst : Holds oracles k w.tick (stamped r revision (env.nowMillis w.clock)) :=
      h.tick.same rfl
    have hs := hst.store ha
    simp only [if_true, ok_bind, ok_write, ok_pure]
    exact ⟨hs.joint, hs⟩

theorem returns_extendElapsedPausesThrough {gate through} :
    Returns oracles k (extendElapsedPausesThrough codec env gate r through) w := by
  unfold Returns extendElapsedPausesThrough
  split
  · exact ok_pure.mpr h
  · simp only [ok_bind, ok_askChecked]
    refine ⟨h.joint.tick, ?_⟩
    intro extra _
    split
    · exact returns_persistRecord (h.tick.same rfl)
    · exact ok_pure.mpr h.tick

theorem returns_extendElapsedPauses : Returns oracles k (extendElapsedPauses codec env r) w := by
  unfold Returns extendElapsedPauses
  cases env.gate with
  | none => exact ok_pure.mpr h
  | some gate =>
    simp only [ok_bind, ok_ask]
    exact ⟨h.joint.tick, returns_extendElapsedPausesThrough h.tick⟩

theorem returns_saveRecord : Returns oracles k (saveRecord codec env r) w := by
  unfold Returns saveRecord
  rw [ok_bind]
  exact (returns_extendElapsedPauses h).imp fun _ _ h => returns_persistRecord h

theorem spec_saveRecord_holds {R r'} (hc : r'.core = r.core)
    (hR : ∀ record t, Holds oracles k t record → R record t) :
    Spec (saveRecord codec env r') w (Joint oracles k) (Ok R) :=
  (returns_saveRecord (h.same hc)).imp hR

theorem returns_release : Returns oracles k (release codec r) w := by
  unfold Returns release
  cases r.actor with
  | none => exact ok_pure.mpr h
  | some actor =>
    simp only [ok_bind, ok_pure]
    exact spec_releaseReservation_ok (h.same rfl) fun _ =>
      ⟨h.joint.setReservations _, (h.setReservations _).same rfl⟩

theorem returns_release_save : Returns oracles k (release codec r >>= saveRecord codec env) w := by
  unfold Returns
  rw [ok_bind]
  exact (returns_release h).imp fun _ _ h => returns_saveRecord h

theorem spec_reserve_holds {record actor} :
    Spec (reserve codec env record actor) w (Joint oracles k)
      (Ok fun _ t => Holds oracles k t r) := by
  unfold reserve
  simp only [ok_bind, ok_lift, ok_ask, ok_get]
  intro _ _
  refine ⟨h.joint.tick, ?_⟩
  split
  · simp only [ok_bind, ok_write, ok_pure]
    exact ⟨h.joint.tick.setReservations _, h.tick.setReservations _⟩
  · simp only [ok_bind, ok_write, ok_pure]
    exact ⟨h.joint.tick.setReservations _, h.tick.setReservations _⟩
  · split <;>
    · simp only [ok_bind, ok_write, ok_pure]
      exact ⟨h.joint.tick.setReservations _, h.tick.setReservations _⟩

theorem returns_block : Returns oracles k (block codec env r code) w := by
  unfold block
  exact returns_release_save (h.same rfl)

theorem spec_resumeMoment_holds {record} :
    Spec (resumeMoment env record) w (Joint oracles k) (Ok fun _ t => Holds oracles k t r) := by
  unfold resumeMoment
  simp only [ok_bind, ok_ask]
  refine ⟨h.joint.tick, ?_⟩
  split
  · split
    · simp only [ok_bind, ok_askChecked]
      refine ⟨h.joint.tick.tick, ?_⟩
      intro finish _
      cases finish with
      | none => exact ok_pure.mpr h.tick.tick
      | some finish =>
        simp only [ok_bind, ok_askChecked, ok_pure]
        exact ⟨h.joint.tick.tick.tick, fun _ _ => h.tick.tick.tick⟩
    · exact ok_pure.mpr h.tick
  · exact ok_pure.mpr h.tick

theorem returns_resumeRecord : Returns oracles k (resumeRecord codec env r) w := by
  unfold Returns resumeRecord
  rw [ok_bind]
  refine (spec_resumeMoment_holds h).imp fun now t h => ?_
  cases r.snapshot.resumeState with
  | none => exact ok_fail
  | some state => exact returns_persistRecord (h.same (resumed_core r state now))

theorem returns_parkActive {pause} : Returns oracles k (parkActive codec env r pause) w := by
  have hp : ∀ r t, Holds oracles k t r →
      Returns oracles k (release codec (parked r pause) >>= persistRecord codec env) t := by
    intro r t h
    have hpa : Holds oracles k t (parked r pause) := h.same rfl
    unfold Returns
    rw [ok_bind]
    exact (returns_release hpa).imp fun _ _ h => returns_persistRecord h
  unfold Returns parkActive
  split
  · exact ok_pure.mpr h
  · cases env.gate with
    | none =>
      rw [ok_bind, ok_pure]
      exact hp r w h
    | some gate =>
      rw [ok_bind]
      exact (returns_extendElapsedPausesThrough h).imp fun r t h => hp r t h

theorem returns_parkRecord {pause} : Returns oracles k (parkRecord codec env r pause) w := by
  unfold Returns parkRecord
  cases r.pause with
  | none => exact returns_parkActive h
  | some previous =>
    simp only
    split
    · exact ok_pure.mpr h
    split
    · cases env.gate with
      | none => exact ok_pure.mpr h
      | some gate =>
        simp only [ok_bind, ok_askChecked]
        refine ⟨h.joint.tick, ?_⟩
        intro finish _
        cases finish with
        | none => exact ok_pure.mpr h.tick
        | some finish =>
          simp only [ok_bind]
          exact (returns_resumeRecord h.tick).imp fun _ _ h => returns_parkActive h
    · exact returns_persistRecord (h.same rfl)

theorem returns_retryPhase : Returns oracles k (retryPhase codec env r phase code) w := by
  unfold Returns retryPhase
  split
  · simp only [ok_bind, ok_ask]
    exact ⟨h.joint.tick, returns_parkRecord h.tick⟩
  split
  · exact returns_block h
  split
  · exact ok_fail
  · split
    · exact returns_block (h.same rfl)
    · rw [ok_bind, ok_ask, ok_bind, ok_ask]
      exact ⟨h.joint.tick, h.joint.tick.tick, returns_release_save (h.tick.tick.same rfl)⟩

theorem spec_publishPrepared_holds {p} :
    Spec (publishPrepared codec p) w (Joint oracles k) (Ok fun _ t => Holds oracles k t r) := by
  unfold publishPrepared
  simp only [ok_bind, ok_lift, ok_get, ok_require, ok_consult]
  intro _ _ _ stored _
  cases stored
  on_goal 1 => dsimp only
  on_goal 2 =>
    simp only [ok_bind, ok_lift]
    intro _ _ _ _
  all_goals
    split
    · exact ok_require.mpr fun _ => h
    · exact ok_write.mpr ⟨h.joint.addPrepared p, h.addPrepared p⟩

theorem returns_takeCandidate {c before} (hm : c.mergeOid = none → c.FromMerge oracles)
    (hl : w.host.candidatesIn k = some (before ++ [c])) :
    Returns oracles k (takeCandidate r c) w := by
  unfold Returns takeCandidate
  simp only [ok_bind, ok_write, ok_lift]
  have hj := h.offer hl
  refine ⟨hj, ?_⟩
  intro r' hr'
  exact ⟨hj, recordCandidate_agrees h.agrees hl hm hr'⟩

theorem Holds.begun (step : IntegrationStep) (actor : ProcessIdentity)
    (intent : Option IntegrationPushIntent) (now : Nat) :
    Holds oracles k w (begunPhase r step actor intent now) := by
  refine ⟨h.joint, ⟨h.agrees.inEpoch.id, h.agrees.inEpoch.epoch, h.agrees.inEpoch.source,
    h.agrees.inEpoch.identity⟩, ?_, h.agrees.known⟩
  intro c hc
  refine (h.agrees.attempts c hc).trans ?_
  change _ ≤ if step = .fetch ∧ r.snapshot.attempts = 0 then 1 else r.snapshot.attempts
  split <;> omega

omit h in
theorem stays_releaseFailedPhase (h : Joint oracles k w) :
    Stays oracles k (releaseFailedPhase codec env reservation) w := by
  unfold Stays releaseFailedPhase
  simp only [ok_bind, ok_consult]
  refine (stays_releaseReservation h).imp fun _ t ht stored hs => ?_
  cases stored with
  | none => exact ok_pure.mpr ht
  | some current =>
    simp only
    split
    · rw [ok_discard]
      exact spec_saveRecord_holds (ht.holds (load_eq_some hs)) rfl fun _ _ h => h.joint
    · exact ok_pure.mpr ht

theorem stays_concludePhase {step} : Stays oracles k (concludePhase codec env r step) w := by
  unfold Stays concludePhase
  rw [ok_bind]
  refine Spec.imp (R := fun r t => Holds oracles k t r) ?_ fun r t ht => ?_
  · split
    · exact returns_release_save h
    · exact ok_pure.mpr h
  · split
    · exact ok_pure.mpr ht.joint
    · simp only [ok_bind, ok_askChecked]
      refine ⟨ht.joint.tick, ?_⟩
      intro admission _
      cases admission with
      | permit => exact ok_pure.mpr ht.joint.tick
      | park pause => exact stays_snapshot (returns_parkRecord ht.tick)

theorem spec_callHost_holds (hcontent : ContentAddressed oracles)
    (henv : HonestHost codec oracles env) {request}
    (hs : StepsIn k request w.host) :
    Spec (callHost env request) w (Joint oracles k) (Ok fun answer t => Holds oracles k t r ∧
      ∀ response, answer = .ok response → Offered oracles k response t.host) := by
  unfold callHost
  simp only [ok_bind, ok_ask, ok_get, ok_write, ok_pure]
  obtain ⟨hf, hof⟩ := (henv w.clock request w.host).follows hcontent h.joint.host hs
  exact ⟨h.joint.tick, h.joint.tick.follows hcontent hf, h.tick.follows hcontent hf, hof⟩

theorem spec_closedObservation_holds (hcontent : ContentAddressed oracles)
    (henv : HonestHost codec oracles env) {step} :
    Spec (closedObservation codec env r step) w (Joint oracles k)
      (Ok fun p t => Holds oracles k t p.2) := by
  unfold closedObservation
  simp only [ok_bind, ok_ask]
  refine ⟨h.joint.tick, ?_⟩
  split
  · exact ok_pure.mpr h.tick
  simp only [ok_bind, ok_ask]
  refine ⟨h.joint.tick.tick, ?_⟩
  refine spec_saveRecord_holds h.tick.tick rfl fun record t ht => ?_
  refine (spec_callHost_holds ht hcontent henv (ht.agrees.steps step)).imp fun answer u hu => ?_
  cases answer with
  | error e =>
    simp only [ok_bind, ok_pure]
    exact returns_retryPhase hu.1
  | ok response =>
    simp only [ok_bind, ok_lift]
    intro _ _
    split
    · simp only [ok_bind, ok_pure]
      exact returns_retryPhase (hu.1.same rfl)
    · exact ok_pure.mpr hu.1

theorem stays_integrated : Stays oracles k (do
      let record ← release codec (integrated r)
      let record ← saveRecord codec env record
      return record.snapshot) w := by
  have hr : Holds oracles k w (integrated r) := h.same rfl
  unfold Stays
  rw [ok_bind]
  exact (returns_release hr).imp fun _ _ h => stays_snapshot (returns_saveRecord h)

/-! ## Stopping without a phase -/

theorem returns_requestStop : Returns oracles k (requestStop codec env r) w := by
  unfold Returns requestStop
  cases r.tombstone with
  | some tombstone => exact ok_pure.mpr h
  | none =>
    simp only [ok_bind, ok_lift, ok_ask]
    intro revision _
    exact ⟨h.joint.tick, returns_saveRecord (h.tick.same rfl)⟩

theorem stays_stopRefused : Stays oracles k (stopRefused codec env r) w := by
  unfold Stays stopRefused
  simp only [ok_bind, ok_askChecked, ok_get, ok_require, ok_consult]
  refine ⟨h.joint.tick, ?_⟩
  intro facts _ _ covers _
  split
  · exact ok_fail
  · have hr : Holds oracles k w.tick (superseded r) := h.tick.same rfl
    rw [ok_bind]
    exact (returns_release hr).imp fun _ _ h => stays_snapshot (returns_saveRecord h)

theorem tells_stopWon {receipt} : Tells oracles k (stopWon codec env r receipt) w := by
  have hs : ∀ (goOn : Bool) r t, Holds oracles k t r → Tells oracles k (do
      let record ← release codec r
      let record ← saveRecord codec env record
      return (goOn, record)) t := by
    intro goOn r t ht
    unfold Tells
    rw [ok_bind]
    refine (returns_release ht).imp fun record u hu => ?_
    simp only [ok_bind, ok_pure]
    exact returns_saveRecord hu
  unfold Tells stopWon
  simp only [ok_bind, ok_lift]
  intro _ _
  cases r.tombstone with
  | none => exact ok_fail
  | some tombstone =>
    simp only [ok_bind, ok_askChecked, ok_consult]
    refine ⟨h.joint.tick, ?_⟩
    intro facts _ current _
    split
    · exact hs _ _ _ (h.tick.same rfl)
    · exact hs _ _ _ (h.tick.same rfl)

theorem returns_saveStop {id tombstone attempts} :
    Returns oracles k (saveStop codec env id tombstone attempts r) w := by
  induction attempts generalizing w r with
  | zero =>
    unfold Returns saveStop
    simp only [ok_bind, ok_require]
    intro _ _
    split
    · exact ok_fail
    · split
      · exact ok_pure.mpr h
      · exact ok_fail
  | succ attempts ih =>
    unfold Returns saveStop
    simp only [ok_bind, ok_require]
    intro _ _
    split
    · exact ok_fail
    · rename_i current _
      split
      · exact ok_pure.mpr h
      have hn : Holds oracles k w (acknowledged r current) := h.same rfl
      rw [ok_bind]
      refine (returns_release hn).imp fun next t ht => ?_
      rw [ok_bind]
      refine (returns_saveRecord ht).attempt ht.joint ?_ ?_
      · intro e u hu
        simp only
        split
        · simp only [ok_bind, ok_consult]
          intro stored hs
          cases stored with
          | none => exact ok_fail
          | some record => exact ih (hu.holds (load_eq_some hs))
        · exact ok_fail
      · exact fun _ _ hu => ok_pure.mpr hu

/-! ## Driving without a phase -/

omit h in
theorem stays_observeAuxiliary {source : TurnId} (h : Joint oracles k w) :
    Stays oracles k (observeAuxiliary codec env source) w := by
  unfold Stays observeAuxiliary
  simp only [ok_bind, ok_get]
  split
  · exact ok_pure.mpr h
  simp only [ok_bind, ok_consult]
  intro stored hs
  cases stored with
  | none => exact ok_pure.mpr h
  | some record =>
    have hr := h.holds (load_eq_some hs)
    simp only
    split
    · rw [ok_discard, ok_consult]
      exact fun _ _ => h
    · simp only [ok_bind, ok_askChecked, ok_lift]
      refine ⟨h.tick, ?_⟩
      intro o _ _ _
      split
      · exact ok_pure.mpr h.tick
      · simp only [ok_bind, ok_require]
        intro _
        split
        · exact ok_pure.mpr h.tick
        · simp only [ok_bind, ok_ask, ok_discard]
          exact ⟨h.tick.tick, spec_saveRecord_holds hr.tick.tick rfl fun _ _ h => h.joint⟩

theorem returns_withDeadline {o} : Returns oracles k (withDeadline env r o) w := by
  unfold Returns withDeadline
  split
  · simp only [ok_bind, ok_ask, ok_pure]
    exact ⟨h.joint.tick, h.joint.tick.tick, h.tick.tick.same rfl⟩
  · exact ok_pure.mpr h

theorem returns_enqueueAuxiliary {aux prepared o} :
    Returns oracles k (enqueueAuxiliary codec env r aux prepared o) w := by
  unfold Returns enqueueAuxiliary
  split
  · exact ok_pure.mpr h
  · simp only [ok_bind, ok_askChecked, ok_require, ok_lift, ok_pure]
    refine ⟨h.joint.tick, ?_⟩
    intro _ _ _
    exact (returns_loaded h.joint.tick).imp fun _ _ h _ _ => h

theorem tells_resumeDue : Tells oracles k (resumeDue codec env r) w := by
  unfold Tells resumeDue
  rw [ok_bind]
  refine Spec.imp (R := fun r t => Holds oracles k t r) ?_ fun r t ht => ?_
  · split
    · exact returns_resumeRecord h
    · exact ok_pure.mpr h
  · split
    · rw [ok_bind, ok_ask]
      refine ⟨ht.joint.tick, ?_⟩
      split
      · exact ok_pure.mpr ht.tick
      · simp only [ok_bind, ok_pure]
        exact returns_resumeRecord ht.tick
    · exact ok_pure.mpr ht

theorem tells_claimRecord : Tells oracles k (claimRecord codec env r) w := by
  unfold Tells claimRecord
  cases r.actor with
  | none => exact ok_pure.mpr h
  | some actor =>
    simp only
    split
    · exact ok_pure.mpr h
    rw [ok_bind, ok_ask]
    refine ⟨h.joint.tick, ?_⟩
    split
    · simp only [ok_bind, ok_pure]
      exact returns_release h.tick
    · exact ok_pure.mpr h.tick

end

/-! ## Phases -/

section
variable {stop : IntegrationSnapshot → OwnerM HostState IntegrationSnapshot}
  (hstop : ∀ w snapshot, Joint oracles k w → Stays oracles k (stop snapshot) w)
include hstop

theorem returns_stop {snapshot : IntegrationSnapshot} (h : Joint oracles k w) :
    Returns oracles k (discard (stop snapshot) >>= fun _ => consult fun w => w.loaded codec) w := by
  unfold Returns
  rw [ok_bind, ok_discard]
  exact (hstop w snapshot h).imp fun _ _ h => returns_loaded h

section
variable (h : Holds oracles k w r)
include h

theorem tells_revokeSuperseded : Tells oracles k (revokeSuperseded codec env stop r) w := by
  unfold Tells revokeSuperseded
  simp only [ok_bind, ok_askChecked, ok_consult]
  refine ⟨h.joint.tick, ?_⟩
  intro facts _ current _
  split
  · exact ok_pure.mpr h.tick
  rw [ok_bind]
  refine Spec.imp (R := fun _ t => Holds oracles k t r) ?_ fun aside t ht => ?_
  · split
    · exact ok_consult.mpr fun _ _ => h.tick
    · exact ok_pure.mpr h.tick
  · split
    · exact ok_pure.mpr ht
    · simp only [ok_bind, ok_discard, ok_pure]
      exact (hstop t r.snapshot ht.joint).imp fun _ _ h => returns_loaded h

theorem tells_permit {phase} : Tells oracles k (permit codec env stop r phase) w := by
  unfold Tells permit
  rw [ok_bind]
  refine (tells_revokeSuperseded hstop h).imp ?_
  rintro ⟨stopped, record⟩ t ht
  cases stopped with
  | true => exact ok_pure.mpr ht
  | false =>
    simp only [ok_bind, ok_askChecked]
    refine ⟨ht.joint.tick, ?_⟩
    intro admission _
    cases admission with
    | permit =>
      simp only [ok_bind, ok_pure]
      exact returns_extendElapsedPauses ht.tick
    | park pause =>
      simp only [ok_bind, ok_pure]
      exact returns_parkRecord ht.tick

theorem returns_prepareAuxiliary {purpose} :
    Returns oracles k (prepareAuxiliary codec env stop r purpose) w := by
  unfold Returns prepareAuxiliary
  simp only
  split
  · exact returns_block h
  simp only [ok_bind, ok_askChecked, ok_consult]
  refine ⟨h.joint.tick, ?_⟩
  intro facts _ current _
  split
  · exact returns_stop hstop h.joint.tick
  split
  · exact returns_block h.tick
  simp only [ok_bind, ok_lift, ok_get]
  intro turn _
  split
  · split
    · exact returns_block h.tick
    · exact ok_fail
  · simp only [ok_bind, ok_lift]
    refine (spec_publishPrepared_holds h.tick).imp fun _ t ht intent _ => ?_
    exact ok_bind.mp (returns_release_save (ht.same rfl))

theorem returns_applyBlocked {step code exhausted} :
    Returns oracles k (applyBlocked codec env stop r step code exhausted) w := by
  unfold Returns applyBlocked
  simp only [ok_bind, ok_askChecked]
  refine ⟨h.joint.tick, ?_⟩
  intro admission _
  cases admission with
  | park pause => exact returns_parkRecord h.tick
  | permit =>
    simp only
    split
    · exact returns_prepareAuxiliary hstop h.tick
    · exact returns_retryPhase (h.tick.same rfl)

theorem returns_applyResponse {step response} (hof : Offered oracles k response w.host) :
    Returns oracles k (applyResponse codec env stop r step response) w := by
  unfold Returns
  cases response with
  | candidateReady identity c =>
    obtain ⟨hm, before, hl⟩ := hof c rfl
    simp only [applyResponse, ok_bind]
    refine (returns_takeCandidate h hm hl).imp fun r t ht => ?_
    split
    · simp only [ok_bind, ok_ask, ok_pure]
      exact ⟨ht.joint.tick, returns_saveRecord (ht.tick.same rfl)⟩
    · rw [ok_pure]
      exact returns_saveRecord (ht.same rfl)
  | needTurn identity c purpose =>
    obtain ⟨hm, before, hl⟩ := hof c rfl
    simp only [applyResponse]
    split
    · exact returns_block h
    simp only [ok_bind]
    refine (returns_takeCandidate h hm hl).imp fun r t ht => ?_
    refine spec_saveRecord_holds ht rfl fun r' u hu => ?_
    split
    · exact returns_prepareAuxiliary hstop hu
    · exact ok_pure.mpr hu
  | targetMoved identity target =>
    simp only [applyResponse]
    split
    · exact returns_block h
    · exact returns_saveRecord ⟨h.joint, h.agrees.invalidate (Nat.le_succ _)⟩
  | integrated identity receipt =>
    simp only [applyResponse, ok_bind, ok_lift]
    intro _ _ kept _
    exact returns_saveRecord (h.same rfl)
  | blocked identity code exhausted => exact returns_applyBlocked hstop h
  | progress identity snapshot =>
    cases snapshot with
    | none => exact ok_fail
    | some snapshot =>
      simp only [applyResponse, ok_bind, ok_require, ok_pure]
      exact fun _ => h
  | revoked identity => exact ok_fail

theorem returns_settlePhase {step answer}
    (ha : ∀ response, answer = .ok response → Offered oracles k response w.host) :
    Returns oracles k (settlePhase codec env stop r step answer) w := by
  unfold settlePhase
  cases answer with
  | error e => exact returns_applyResponse hstop h fun _ hc => by cases hc
  | ok response =>
    unfold Returns
    simp only [ok_bind, ok_lift]
    exact fun _ _ => returns_applyResponse hstop h (ha response rfl)

theorem stays_importReceipt {receipt closed} :
    Stays oracles k (importReceipt codec env stop r receipt closed) w := by
  unfold Stays importReceipt
  simp only [ok_bind, ok_askChecked, ok_lift, ok_require]
  refine ⟨h.joint.tick, ?_⟩
  intro result _ _ _ _
  refine spec_saveRecord_holds h.tick rfl fun record t ht => ?_
  split
  · refine (tells_permit hstop ht).goOn true (fun _ => rfl) fun record u hu => ?_
    simp only
    rw [ok_bind]
    refine spec_saveRecord_holds hu rfl fun record v hv => ?_
    rw [ok_bind, ok_askChecked]
    exact ⟨hv.joint.tick, fun _ _ => stays_integrated hv.tick⟩
  · exact stays_integrated ht

end

section
variable (hcontent : ContentAddressed oracles) (henv : HonestHost codec oracles env)
  {facts step index aux prepared o} (h : Holds oracles k w r)
include hcontent henv h

theorem stays_finishPhase {reservation} :
    Stays oracles k (finishPhase codec env stop r step reservation) w := by
  unfold Stays finishPhase
  simp only [ok_bind]
  refine (spec_callHost_holds h hcontent henv (h.agrees.steps step)).imp fun answer t ht => ?_
  obtain ⟨ht, ha⟩ := ht
  refine (returns_settlePhase hstop ht ha).attempt ht.joint ?_ ?_
  · intro e u hu
    simp only [ok_bind]
    exact (stays_releaseFailedPhase hu).imp fun _ _ _ => ok_fail
  · intro record u hu
    exact stays_concludePhase hu

theorem stays_hostPhase : Stays oracles k (hostPhase codec env stop r step) w := by
  unfold Stays hostPhase
  refine (tells_permit hstop h).goOn true (fun _ => rfl) fun record t ht => ?_
  simp only
  rw [ok_bind]
  refine (spec_reserve_holds ht).imp fun reserved u hu => ?_
  cases reserved with
  | none => exact ok_pure.mpr hu.joint
  | some reservation =>
    simp only [ok_bind, ok_ask, ok_lift]
    refine ⟨hu.joint.tick, ?_⟩
    intro intent _
    refine ⟨hu.joint.tick.tick, ?_⟩
    refine (returns_saveRecord (hu.tick.tick.begun step _ _ _)).imp fun begun v hv => ?_
    simp only [ok_consult]
    intro stored _
    split
    · simp only [ok_bind]
      refine (stays_releaseReservation hv.joint).imp fun _ x hx => ?_
      exact ok_bind.mp (stays_snapshot (returns_loaded hx))
    · simp only [ok_bind]
      refine (tells_revokeSuperseded hstop hv).imp ?_
      rintro ⟨stopped, record⟩ x hx
      cases stopped with
      | true => exact ok_pure.mpr hx.joint
      | false => exact stays_finishPhase hstop hcontent henv hx

theorem stays_finishReceipt {closed} :
    Stays oracles k (finishReceipt codec env stop r closed) w := by
  unfold Stays finishReceipt
  cases r.receipt with
  | none => exact ok_fail
  | some receipt =>
    simp only
    split
    · rw [ok_bind]
      refine (spec_closedObservation_holds h hcontent henv).imp ?_
      rintro ⟨response, record⟩ t ht
      cases response with
      | none => exact ok_pure.mpr ht.joint
      | some response =>
        simp only [ok_bind, ok_lift]
        intro _ _
        exact stays_importReceipt hstop ht
    · rw [ok_bind]
      refine (stays_hostPhase hstop hcontent henv h).imp fun snapshot t ht => ?_
      split
      · exact ok_pure.mpr ht
      rw [ok_bind]
      refine (returns_loaded ht).imp fun record u hu => ?_
      refine (tells_permit hstop hu).goOn true (fun _ => rfl) fun record v hv => ?_
      simp only [ok_bind]
      exact spec_saveRecord_holds hv rfl fun _ _ h => stays_importReceipt hstop h

/-! ## Stopping -/

theorem stays_askStop : Stays oracles k (askStop codec env stop r) w := by
  unfold Stays askStop
  rw [ok_bind]
  refine (returns_requestStop h).imp fun record t ht => ?_
  cases record.tombstone with
  | none => exact ok_fail
  | some tombstone =>
    simp only [ok_bind]
    -- A stop is no step, so it may name any candidates.
    refine (spec_callHost_holds ht hcontent henv (by intro _ _ h; cases h)).imp
      fun answer u hu => ?_
    obtain ⟨hu, -⟩ := hu
    cases answer with
    | error e =>
      simp only
      split
      · exact stays_stopRefused hu
      · exact ok_fail
    | ok response =>
      simp only [ok_bind, ok_lift]
      intro _ _
      split
      · exact stays_snapshot (returns_saveStop hu)
      · refine (tells_stopWon hu).goOn true (fun _ => rfl) fun record v hv => ?_
        simp only [ok_bind, ok_discard]
        exact (stays_finishReceipt hstop hcontent henv hv).imp fun _ _ _ =>
          ok_fail
      · exact ok_fail

omit h in
theorem stays_revokeOwner {expected} (h : Joint oracles k w) :
    Stays oracles k (revokeOwner codec env stop expected) w := by
  unfold Stays revokeOwner
  rw [ok_bind]
  refine (returns_loaded h).imp fun record t ht => ?_
  simp only [ok_bind, ok_require]
  intro _ _
  split
  · split
    · simp only [ok_bind, ok_askChecked, ok_consult]
      refine ⟨ht.joint.tick, ?_⟩
      intro facts _ current _
      split
      · rw [ok_bind]
        exact (stays_finishReceipt hstop hcontent henv ht.tick).imp fun _ _ _ =>
          ok_fail
      · exact ok_pure.mpr ht.joint.tick
    · exact ok_pure.mpr ht.joint
  · exact stays_askStop hstop hcontent henv ht

omit h in
theorem stays_revokeObserved {expected} (attempts : Nat) (h : Joint oracles k w) :
    Stays oracles k (revokeObserved codec env stop expected attempts) w := by
  induction attempts generalizing w with
  | zero => exact ok_fail
  | succ attempts ih =>
    unfold Stays revokeObserved
    simp only [ok_bind, ok_consult]
    intro stored _
    cases stored with
    | none => exact ok_fail
    | some record =>
      simp only [ok_bind, ok_require]
      intro _
      refine (stays_revokeOwner hstop hcontent henv h).attempt h ?_ ?_
      · intro e t ht
        simp only
        split
        · exact ih ht
        · exact ok_fail
      · exact fun _ _ ht => ok_pure.mpr ht

/-! ## Closed tasks -/

theorem stays_settleClosedReserved : Stays oracles k (settleClosedReserved codec env stop r) w := by
  unfold Stays settleClosedReserved
  split
  · exact stays_finishReceipt hstop hcontent henv h
  rw [ok_bind]
  refine (spec_closedObservation_holds h hcontent henv).imp ?_
  rintro ⟨response, record⟩ t ht
  simp only
  split
  · rename_i heq
    cases heq
    exact ok_pure.mpr ht.joint
  · rename_i heq
    cases heq
    simp only [ok_bind, ok_lift]
    intro _ _
    exact spec_saveRecord_holds ht rfl fun _ _ h => stays_finishReceipt hstop hcontent henv h
  · rename_i heq
    cases heq
    exact stays_snapshot (returns_block ht)

theorem stays_settleClosed : Stays oracles k (settleClosed codec env stop r) w := by
  unfold Stays settleClosed
  simp only [ok_bind, ok_ask]
  refine ⟨h.joint.tick, ?_⟩
  split
  · exact ok_pure.mpr h.joint.tick
  rw [ok_bind]
  refine (spec_reserve_holds h.tick).imp fun reserved t ht => ?_
  cases reserved with
  | none => exact stays_snapshot (returns_saveRecord (ht.same rfl))
  | some reservation =>
    simp only [ok_bind]
    refine Spec.imp (R := fun _ u => Joint oracles k u) ?_ fun applied u hu => ?_
    · have hc : Stays oracles k (do
          let record ← saveRecord codec env { r with actor := some env.actor }
          settleClosedReserved codec env stop record) t := by
        unfold Stays
        rw [ok_bind]
        exact spec_saveRecord_holds ht rfl fun _ _ h =>
          stays_settleClosedReserved hstop hcontent henv h
      exact hc.attempt ht.joint (fun _ _ h => h) fun _ _ h => h
    -- Whatever became of the settlement, the target is given back.
    · simp only [ok_discard, ok_lift, ok_pure]
      refine (stays_releaseReservation hu).imp fun _ v hv => ?_
      refine (returns_loaded hv).imp fun latest x hx => ?_
      split
      · exact spec_saveRecord_holds hx rfl fun _ _ h _ _ => h.joint
      · exact ok_pure.mpr fun _ _ => hx.joint

/-! ## Driving -/

theorem stays_acceptAuxiliary : Stays oracles k (acceptAuxiliary codec env stop r aux facts) w := by
  unfold Stays acceptAuxiliary
  rw [ok_bind]
  refine spec_saveRecord_holds h rfl fun record t ht => ?_
  split
  · exact ok_pure.mpr ht.joint
  split
  · exact stays_snapshot (returns_block ht)
  split
  · exact stays_snapshot (returns_block ht)
  · exact stays_hostPhase hstop hcontent henv (ht.same rfl)

omit hcontent henv in
theorem stays_admitAuxiliary :
    Stays oracles k (admitAuxiliary codec env stop r index aux prepared o) w := by
  unfold Stays admitAuxiliary
  refine (tells_permit hstop h).goOn true (fun _ => rfl) fun record t ht => ?_
  simp only
  rw [ok_bind]
  refine (returns_withDeadline ht).imp fun record t ht => ?_
  rw [ok_bind, ok_ask]
  refine ⟨ht.joint.tick, ?_⟩
  split
  · exact stays_snapshot (returns_block ht.tick)
  rw [ok_bind]
  refine (returns_release ht.tick).imp fun record t ht => ?_
  rw [ok_bind]
  refine spec_saveRecord_holds ht rfl fun record t ht => ?_
  refine (tells_revokeSuperseded hstop ht).goOn false (fun _ => rfl) fun record t ht => ?_
  simp only
  rw [ok_bind]
  refine (returns_enqueueAuxiliary ht).imp fun record t ht => ?_
  simp only [ok_bind, ok_askChecked, ok_lift]
  refine ⟨ht.joint.tick, ?_⟩
  intro o _ _ _
  refine spec_saveRecord_holds ht.tick rfl fun record t ht => ?_
  refine ⟨ht.joint.tick, ?_⟩
  intro admission _
  cases admission with
  | permit => exact ok_pure.mpr ht.joint.tick
  | park pause => exact stays_snapshot (returns_parkRecord ht.tick)

theorem stays_driveAuxiliary : Stays oracles k (driveAuxiliary codec env stop r facts) w := by
  unfold Stays driveAuxiliary
  cases r.auxiliaries.getLast? with
  | none => exact ok_fail
  | some aux =>
    simp only [ok_bind, ok_consult]
    intro prepared _
    cases prepared with
    | none => exact ok_fail
    | some prepared =>
      simp only [ok_bind, ok_lift, ok_askChecked, ok_require]
      intro _ _
      refine ⟨h.joint.tick, ?_⟩
      intro o _ _ _ _
      split
      · exact stays_acceptAuxiliary hstop hcontent henv (h.tick.same rfl)
      · exact stays_admitAuxiliary hstop (h.tick.same rfl)

theorem stays_driveRecord : Stays oracles k (driveRecord codec env stop r facts) w := by
  unfold Stays driveRecord
  split
  · exact stays_driveAuxiliary hstop hcontent henv h
  split
  · exact stays_finishReceipt hstop hcontent henv h
  split
  · exact ok_fail
  · exact stays_hostPhase hstop hcontent henv h

theorem stays_driveOpen : Stays oracles k (driveOpen codec env stop r facts) w := by
  unfold Stays driveOpen
  refine (tells_claimRecord h).goOn true (fun _ => rfl) fun record t ht => ?_
  simp only
  rw [ok_bind]
  refine Spec.imp (R := fun r t => Holds oracles k t r) ?_ fun record t ht => ?_
  · split
    · split
      · exact ok_pure.mpr ht
      · rw [ok_bind]
        exact (stays_observeAuxiliary ht.joint).imp fun _ _ hu => returns_loaded hu
    · exact ok_pure.mpr ht
  · refine (tells_permit hstop ht).goOn true (fun _ => rfl) fun record t ht => ?_
    refine (tells_resumeDue ht).goOn true (fun _ => rfl) fun record t ht => ?_
    exact stays_driveRecord hstop hcontent henv ht

omit h in
theorem stays_driveOnce (h : Joint oracles k w) : Stays oracles k (driveOnce codec env stop) w := by
  unfold Stays driveOnce
  rw [ok_bind]
  refine (returns_loaded h).imp fun record t ht => ?_
  rw [ok_bind, ok_askChecked]
  refine ⟨ht.joint.tick, ?_⟩
  intro facts _
  split
  · refine (tells_claimRecord ht.tick).goOn true (fun _ => rfl) fun record t ht => ?_
    exact stays_settleClosed hstop hcontent henv ht
  split
  · exact hstop _ _ ht.joint.tick
  rw [ok_bind]
  refine Spec.imp (R := fun _ u => u = t.tick) ?_ fun gone u hu => ?_
  · split
    · exact ok_pure.mpr rfl
    · simp only [ok_bind, ok_consult, ok_pure]
      exact fun _ _ => trivial
  · subst hu
    split
    · exact hstop _ _ ht.joint.tick
    split
    · exact ok_pure.mpr ht.joint.tick
    split
    · exact stays_snapshot (returns_block ht.tick)
    split
    · exact stays_snapshot (returns_block ht.tick)
    · exact stays_driveOpen hstop hcontent henv ht.tick

end

end

/-! ## The whole owner -/

section
variable (hcontent : ContentAddressed oracles) (henv : HonestHost codec oracles env)
include hcontent henv

theorem stays_revokeForStop (depth : Nat) (snapshot : IntegrationSnapshot)
    (h : Joint oracles k w) : Stays oracles k (revokeForStop codec env depth snapshot) w := by
  induction depth generalizing w snapshot with
  | zero => exact ok_fail
  | succ depth ih =>
    exact stays_revokeObserved (fun w snapshot h => ih snapshot h) hcontent henv 3 h

theorem stays_driveCycle (depth : Nat) (h : Joint oracles k w) :
    Stays oracles k (driveCycle codec env depth) w :=
  stays_driveOnce (fun _ snapshot h => stays_revokeForStop hcontent henv depth snapshot h) hcontent
    henv h

theorem stays_revokeCycle (depth expected : Nat) (h : Joint oracles k w) :
    Stays oracles k (revokeCycle codec env depth expected) w :=
  stays_revokeOwner (fun _ snapshot h => stays_revokeForStop hcontent henv depth snapshot h)
    hcontent
    henv h

end

end

end MacWorker.Integration
