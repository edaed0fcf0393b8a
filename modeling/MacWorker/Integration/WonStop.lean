import MacWorker.Integration.OwnerSaves
import MacWorker.Integration.HostRuns

/-! # Stopping a cycle whose push won

The host answers a stop with the receipt of the push when the push won. The owner then
publishes the cycle instead of revoking it: it stores the receipt, lets the host repair
the task, and imports the receipt. The stop rewrites only a part of the record, and a
record in a backoff or a pause has more fields that belong to that state. -/
namespace MacWorker.Integration
open Fallible Durable List
open Dag (IntegrationStatus IntegrationCode)

/-- The host's answer to the repair of a cycle with this receipt: the receipt again, up
to its import, or a refusal. -/
def Repairs (receipt : IntegrationReceipt) (request : HostIntegrationRequest) :
    Checked HostIntegrationResponse → Prop
  | .ok (.integrated identity repeated) => identity = .forRequest request ∧
      repeated = { receipt with imported := repeated.imported }
  | .ok (.blocked identity code _) => identity = .forRequest request ∧ code ≠ .resolutionIncomplete
  | .ok _ => False
  | .error e => hostErrorCode e ≠ .resolutionIncomplete

/-- A stored cycle under way whose source is current, and a host that answers its stop
with a receipt; everything else the owner asks works, or fails for reasons of its own. -/
structure StopsWon {η : Type} (codec : Codec) (env : OwnerEnv η) (w : OwnerWorld η)
    (r : IntegrationRecord) (receipt : IntegrationReceipt) : Prop where
  settling : Settling codec w r
  held : w.record = some r
  underWay : r.snapshot.state ∈ [.pending, .fetching, .resolving, .verifying, .commitReady,
    .pushing, .published, .retryWait, .parked]
  /-- A stop that was requested before is one of this epoch, and still open. -/
  requested : ∀ t, r.tombstone = some t →
    t.acknowledged = false ∧ t.epoch = r.snapshot.epoch ∧ t.revision ≠ 0
  phases : (r.phaseRetries.map (·.phase)).Nodup
  reserved : Reserved w r
  room : r.snapshot.revision + 32 < 2 ^ 64
  current : ∀ n, ∃ facts, env.sourceFacts n = .ok facts ∧
    w.sourceIsCurrentAsideFromStop codec r facts = .ok true
  won : validateReceipt r receipt = .ok ()
  answers : ∀ n t host, (env.host n (revokeRequest r t) host).2 =
    .ok (.integrated (.forRequest (revokeRequest r t)) receipt)
  pauses : env.PausesKnown
  permits : ∀ n phase, env.beginPhase n phase ≠ .error invalid
  repairs : ∀ n record host, Repairs receipt (stepRequest record .repair)
    (env.host n (stepRequest record .repair) host).2
  imports : ∀ n imported, env.importReceipt n receipt = .ok imported →
    imported = { receipt with imported := true }
  importFails : ∀ n, env.importReceipt n receipt ≠ .error invalid
  closes : ∀ n imported, env.closeIntegrated n imported ≠ .error invalid

/-- The record keeps this receipt, up to its import. -/
structure Won (receipt : IntegrationReceipt) (r : IntegrationRecord) : Prop where
  kept : ∃ imported, r.receipt = some { receipt with imported := imported }
  mergeOid : r.snapshot.mergeOid = receipt.mergeOid
  observed : r.snapshot.observedTargetOid = some receipt.targetHead
  disposition : r.snapshot.disposition = some receipt.disposition

section
variable {η : Type} {codec : Codec} {env : OwnerEnv η} {w₀ w : OwnerWorld η}
  {r₀ r r' : IntegrationRecord} {receipt : IntegrationReceipt} {room : Nat}
  {E : IntegrationError → OwnerWorld η → Prop}

theorem Won.resaved (h : Won receipt r) (hr' : r.Resaved r') : Won receipt r' := by
  obtain ⟨_, _, _, _, rfl⟩ := hr'
  exact { h with }

theorem resaved_state (h : r.Resaved r') : r'.snapshot.state = r.snapshot.state := by
  obtain ⟨_, _, _, _, rfl⟩ := h
  rfl

theorem resaved_actor (h : r.Resaved r') : r'.actor = r.actor := by
  obtain ⟨_, _, _, _, rfl⟩ := h
  rfl

/-! ## The source stays current -/

/-- A source that is current but for the stop is current exactly when no stop is requested. -/
theorem ownerSourceIsCurrent_of_aside {facts}
    (h : w.sourceIsCurrentAsideFromStop codec r facts = .ok true) :
    w.ownerSourceIsCurrent codec r facts = .ok (!facts.stopRequested) := by
  cases hst : facts.stopRequested with
  | false =>
    have hsa : { facts with stopRequested := false } = facts := by
      cases facts
      cases hst
      rfl
    rw [OwnerWorld.sourceIsCurrentAsideFromStop, hsa] at h
    exact h
  | true =>
    unfold OwnerWorld.sourceIsCurrentAsideFromStop OwnerWorld.ownerSourceIsCurrent at h
    obtain ⟨covers, hc, -⟩ := of_bind h
    unfold OwnerWorld.ownerSourceIsCurrent
    refine bind_eq_ok.mpr ⟨covers, hc, ?_⟩
    simp [hst]

section
variable (hs : StopsWon codec env w₀ r₀ receipt)
  {stop : IntegrationSnapshot → OwnerM η IntegrationSnapshot}
include hs

variable {R : Bool × IntegrationRecord → OwnerWorld η → Prop} {request : HostIntegrationRequest}

/-- A cycle that keeps a receipt is not superseded while its source is current. -/
theorem spec_revokeSuperseded (h : Held w₀ r₀ room w r) (hk : r.receipt.isSome)
    (hR : Held w₀ r₀ room w.tick r → R (false, r) w.tick) :
    Spec (revokeSuperseded codec env stop r) w (fun _ => True) (Ends E R) := by
  obtain ⟨facts, hfa, ha₀⟩ := hs.current w.clock
  have has : w.tick.sourceIsCurrentAsideFromStop codec r facts = .ok true := by
    rw [h.tick.sourceIsCurrent hs.settling hs.held]
    exact ha₀
  unfold revokeSuperseded
  rw [ends_bind, spec_askChecked, hfa, true_and, ok_answered]
  rw [ends_bind, spec_consult, ownerSourceIsCurrent_of_aside has, ok_answered]
  cases hst : facts.stopRequested with
  | false =>
    rw [if_pos (by rfl), ends_pure]
    exact hR h.tick
  | true =>
    rw [if_neg (by simp), ends_bind, if_pos hk, spec_consult, has, ok_answered]
    rw [if_pos rfl, ends_pure]
    exact hR h.tick

theorem spec_beginPhase {phase R} (hf : ∀ e, e ≠ invalid → E e w.tick) (hR : ∀ a, R a w.tick) :
    Spec (askChecked fun n => env.beginPhase n phase) w (fun _ => True) (Ends E R) := by
  rw [spec_askChecked]
  refine ⟨trivial, fun a _ => hR a, fun e he => hf e ?_⟩
  rintro rfl
  exact hs.permits _ _ he

theorem spec_permit {phase} (hf : ∀ e t, e ≠ invalid → E e t) (h : Held w₀ r₀ (room + 2) w r)
    (hk : r.receipt.isSome) (hst : Pausable r)
    (hy : ∀ r' t, r.Resaved r' → Held w₀ r₀ room t r' → R (true, r') t)
    (hno : ∀ r' t, r'.snapshot.state = .parked → Held w₀ r₀ room t r' → R (false, r') t) :
    Spec (permit codec env stop r phase) w (fun _ => True) (Ends E R) := by
  unfold permit
  rw [ends_bind]
  refine spec_revokeSuperseded hs h hk fun h => ?_
  rw [ends_bind]
  refine spec_beginPhase hs (fun e he => hf e _ he) fun admission => ?_
  cases admission with
  | permit =>
    rw [ends_bind]
    refine spec_extendElapsedPauses hs.settling hs.pauses (h.tick.toReady.less (n := 1))
      fun r' t hr' ht hsa => ?_
    rw [ends_pure]
    exact hy r' t hr' { ht with held := hsa h.held }
  | park pause =>
    rw [ends_bind]
    refine spec_parkRecord hs.settling hs.pauses h.tick.toReady hst fun r' t hr' ht => ?_
    rw [ends_pure]
    exact hno r' t hr' ht

/-! ## The repair -/

theorem validateReceipt_frame (hf : r₀.Frame r) (imported : Bool) :
    validateReceipt r { receipt with imported := imported } = .ok () := by
  have hw := hs.won
  unfold validateReceipt at hw ⊢
  rw [hf.integrationId, hf.epoch, hf.sourceTurnId, hf.sourceHead]
  exact hw

theorem receipt_validate (imported : Bool) :
    IntegrationReceipt.validate { receipt with imported := imported } = .ok () :=
  (of_then (hs.won)).1

/-- How the owner goes on after a repair: still published, or put off. -/
def Repaired (receipt : IntegrationReceipt) (r : IntegrationRecord) : Prop :=
  (r.snapshot.state = .published ∧ Won receipt r) ∨ r.snapshot.state = .retryWait ∨
    r.snapshot.state = .blocked ∨ r.snapshot.state = .parked

omit hs in
theorem receipt_merge (h : receipt.validate = .ok ()) :
    (receipt.disposition = .alreadyIntegrated → receipt.mergeOid.isNone = true) ∧
      (receipt.disposition = .merged → receipt.mergeOid.isSome = true) := by
  have hv := ensure_eq_ok.mp h
  constructor
  · intro hd
    rw [hd] at hv
    have hm : receipt.mergeOid.isSome = false := hv.symm
    rw [← Option.not_isSome, hm]
    rfl
  · intro hd
    rw [hd] at hv
    exact hv.symm

omit hs in
theorem published_sound (h : r.Sound) (hw : r.snapshot.state ≠ .retryWait)
    (hp : r.snapshot.state ≠ .parked) (hr : receipt.validate = .ok ()) :
    (published r receipt).Sound :=
  { h with
    pauseReason := h.pauseReason.trans (beq_false_of_ne hp)
    resumeState := by
      refine h.resumeState.trans ?_
      unfold IntegrationSnapshot.resumable
      rw [beq_false_of_ne hp, beq_false_of_ne hw]
      rfl
    blocked := nofun
    integrated := nofun
    alreadyIntegrated := fun hd => ⟨(receipt_merge hr).1 (Option.some.inj hd), rfl⟩
    merged := fun hd => (receipt_merge hr).2 (Option.some.inj hd)
    parked := h.parked.trans (beq_false_of_ne hp)
    receipt := fun kept hk => Option.some.inj hk ▸ hr }

omit hs in
theorem pausable_of_published (h : r.snapshot.state = .published) : Pausable r := by
  refine .inr ?_
  rw [h]
  rfl

theorem spec_applyBlocked {code exhausted} (h : Held w₀ r₀ (room + 2) w r)
    (hst : r.snapshot.state = .published) (hr : ∃ retry ∈ r.phaseRetries, retry.phase = .repair)
    (hco : code ≠ .resolutionIncomplete) :
    Spec (applyBlocked codec env stop r .repair code exhausted) w (fun _ => True)
      (Ends (fun e t => e ≠ invalid ∧ Held w₀ r₀ (room + 2) t r)
        fun r' t => Held w₀ r₀ room t r' ∧ Repaired receipt r') := by
  unfold applyBlocked
  rw [ends_bind]
  refine spec_beginPhase hs (fun e he => ⟨he, h.tick⟩) fun admission => ?_
  cases admission with
  | park pause =>
    exact spec_parkRecord hs.settling hs.pauses h.tick.toReady (pausable_of_published hst)
      fun r' t hr' ht => ⟨ht, .inr (.inr (.inr hr'))⟩
  | permit =>
    dsimp only
    rw [if_neg (fun hc => hco hc.1), if_neg hco]
    have hre : Ready w₀ r₀ (room + 2) w.tick
        { r with snapshot := { r.snapshot with retryExhausted := exhausted } } :=
      h.tick.toReady.change { h.sound with }
    refine spec_retryPhase hs.settling hs.pauses hre ?_ hr fun r' t hr' ht => ⟨ht, ?_⟩
    · change IntegrationSnapshot.restorable r.snapshot.state = true
      rw [hst]
      rfl
    · rcases hr' with hr' | hr' | hr'
      · exact .inr (.inr (.inr hr'))
      · exact .inr (.inr (.inl hr'))
      · exact .inr (.inl hr')

omit hs in
theorem keptReceipt_of_won (hw : Won receipt r) (imported : Bool) :
    ∃ kept, keptReceipt r { receipt with imported := imported } =
      .ok { receipt with imported := kept } := by
  obtain ⟨kept, hk⟩ := hw.kept
  refine ⟨kept, ?_⟩
  unfold keptReceipt
  rw [hk]
  exact then_eq_ok.mpr ⟨ensure_of rfl, rfl⟩

theorem stepRequest_validate (h : Held w₀ r₀ room w r) :
    (stepRequest r .repair).validate codec = .ok () := by
  have hv := hs.settling.validated h.frame h.sound
  refine then_eq_ok.mpr ⟨ensure_of ⟨rfl, nofun, fun _ => h.sound.revision⟩, ?_⟩
  refine then_eq_ok.mpr ⟨(IntegrationRecord.validate_eq_ok codec).mpr hv, ?_⟩
  exact ensure_of ⟨rfl, rfl, rfl, rfl⟩

omit hs in
theorem validateFor_blocked {code exhausted} (hr : request.validate codec = .ok ()) :
    HostIntegrationResponse.validateFor codec (.blocked (.forRequest request) code exhausted)
      request = .ok () := by
  have hid := (of_then hr).1
  refine then_eq_ok.mpr ⟨hr, then_eq_ok.mpr ⟨?_, ?_⟩⟩
  · exact then_eq_ok.mpr ⟨hid, rfl⟩
  · exact then_eq_ok.mpr ⟨ensure_of rfl, rfl⟩

omit hs in
theorem validateFor_integrated (hr : request.validate codec = .ok ())
    (hre : receipt.validate = .ok ())
    (hid : some receipt.integrationId = request.integrationId)
    (hep : receipt.epoch = request.epoch) :
    HostIntegrationResponse.validateFor codec (.integrated (.forRequest request) receipt)
      request = .ok () := by
  have hin := (of_then hr).1
  refine then_eq_ok.mpr ⟨hr, then_eq_ok.mpr ⟨?_, ?_⟩⟩
  · exact then_eq_ok.mpr ⟨hin, then_eq_ok.mpr ⟨hre, ensure_of ⟨hid, hep⟩⟩⟩
  · exact then_eq_ok.mpr ⟨ensure_of rfl, rfl⟩

theorem spec_applyIntegrated {step identity} (imported : Bool) (h : Held w₀ r₀ (room + 2) w r)
    (hw : Won receipt r) (hst : r.snapshot.state = .published) :
    Spec (applyResponse codec env stop r step
        (.integrated identity { receipt with imported := imported })) w (fun _ => True)
      (Ends E fun r' t => Held w₀ r₀ room t r' ∧ Repaired receipt r') := by
  change Spec (validateReceipt r _ >>= fun _ => keptReceipt r _ >>= fun kept =>
    saveRecord codec env (published r kept) : OwnerM η IntegrationRecord) _ _ _
  rw [ends_bind, ends_lift, validateReceipt_frame hs h.frame, ok_answered]
  obtain ⟨kept, hk⟩ := keptReceipt_of_won hw imported
  rw [ends_bind, ends_lift, hk, ok_answered]
  have hr : Ready w₀ r₀ (room + 2) w (published r { receipt with imported := kept }) := by
    refine h.toReady.change ?_
    exact published_sound h.sound (by simp [hst]) (by simp [hst]) (receipt_validate hs kept)
  refine spec_saveRecord hs.settling hs.pauses hr fun r' t hr' ht => ⟨ht, .inl ?_⟩
  exact ⟨resaved_state hr', Won.resaved ⟨⟨kept, rfl⟩, rfl, rfl, rfl⟩ hr'⟩

theorem spec_settlePhase {answer} (hr : Repairs receipt (stepRequest r .repair) answer)
    (h : Held w₀ r₀ (room + 2) w r) (hw : Won receipt r) (hst : r.snapshot.state = .published)
    (hre : ∃ retry ∈ r.phaseRetries, retry.phase = .repair) :
    Spec (settlePhase codec env stop r .repair answer) w
      (fun _ => True) (Ends (fun e t => e ≠ invalid ∧ Held w₀ r₀ (room + 2) t r)
        fun r' t => Held w₀ r₀ room t r' ∧ Repaired receipt r') := by
  have hrq := stepRequest_validate hs h
  cases answer with
  | error e => exact spec_applyBlocked hs h hst hre hr
  | ok response =>
    cases response with
    | blocked identity code exhausted =>
      obtain ⟨rfl, hc⟩ := hr
      rw [settlePhase, ends_bind, ends_lift, validateFor_blocked hrq, ok_answered]
      exact spec_applyBlocked hs h hst hre hc
    | integrated identity repeated =>
      obtain ⟨rfl, hrp⟩ := hr
      rw [hrp]
      obtain ⟨hrc, hsa⟩ := of_then (validateReceipt_frame hs h.frame repeated.imported)
      obtain ⟨hid, hep, -⟩ := ensure_eq_ok.mp hsa
      rw [settlePhase, ends_bind, ends_lift,
        validateFor_integrated hrq hrc (congrArg some hid) hep, ok_answered]
      exact spec_applyIntegrated hs _ h hw hst
    | _ => exact hr.elim

omit hs in
theorem spec_callHost {R} (hR : R (env.host w.clock request w.host).2
      (w.tick.setHost (env.host w.clock request w.host).1)) :
    Spec (callHost env request) w (fun _ => True) (Ends E R) := by
  unfold callHost
  rw [ends_bind, spec_ask, true_and]
  rw [ends_bind, ends_get, ends_bind, ends_write, ends_pure]
  exact ⟨trivial, hR⟩

omit hs in
theorem Held.setHost (h : Held w₀ r₀ room w r) (host : η) : Held w₀ r₀ room (w.setHost host) r :=
  { h with }

theorem spec_releaseFailedPhase {R actor} (h : Held w₀ r₀ (room + 2) w r)
    (hac : r.actor = some actor) (hR : ∀ t, R () t) :
    Spec (releaseFailedPhase codec env (reservationOf r actor)) w (fun _ => True)
      (Ends E R) := by
  unfold releaseFailedPhase
  rw [ends_bind]
  refine spec_releaseReservation hs.settling h.toReady hac fun t hsa ht => ?_
  have hh : Held w₀ r₀ (room + 2) t r := { ht with held := hsa.trans h.held }
  rw [ends_bind, spec_consult, hh.load hs.settling, ok_answered]
  dsimp only
  rw [if_pos ⟨rfl, rfl, hac⟩]
  change Spec (saveRecord codec env _ >>= fun _ => pure ()) _ _ _
  rw [ends_bind]
  refine spec_saveRecord hs.settling hs.pauses (unclaimed_ready ht) fun r' t _ _ => ?_
  rw [ends_pure]
  exact hR t

/-- The owner's record once a repair is over. -/
def RepairOver (receipt : IntegrationReceipt) (w₀ : OwnerWorld η) (r₀ : IntegrationRecord)
    (room : Nat) (snapshot : IntegrationSnapshot) (w : OwnerWorld η) : Prop :=
  ∃ r, Held w₀ r₀ room w r ∧ snapshot = r.snapshot ∧
    (r.snapshot.state = .published → Won receipt r ∧ r.actor = none)

theorem spec_concludePhase (h : Held w₀ r₀ (room + 4) w r) (hr : Repaired receipt r) :
    Spec (concludePhase codec env r .repair) w (fun _ => True)
      (Ends (fun e _ => e ≠ invalid) (RepairOver receipt w₀ r₀ room)) := by
  unfold concludePhase
  rw [ends_bind]
  -- Once the target is free, the state alone decides.
  refine Spec.ends (R := fun r' t => Held w₀ r₀ (room + 2) t r' ∧ Repaired receipt r' ∧
    r'.actor = none) ?_ (fun _ _ h => h) ?_
  · split
    · refine spec_release_save hs.settling hs.pauses h.toReady fun r' t hr' ht =>
        ⟨ht, ?_, resaved_actor hr'⟩
      rcases hr with ⟨hst, hw⟩ | hr
      · have hfr : Won receipt (unclaimed r) := { hw with }
        exact .inl ⟨(resaved_state hr').trans hst, hfr.resaved hr'⟩
      · have hsa := resaved_state hr'
        change _ = r.snapshot.state at hsa
        rw [← hsa] at hr
        exact .inr hr
    · rename_i hf
      rw [ends_pure]
      exact ⟨h.less (n := 2), hr, by simpa using hf⟩
  · rintro r' t ⟨ht, hr', hf⟩
    have hn : r'.snapshot.state = .published → Won receipt r' ∧ r'.actor = none := by
      intro hp
      rcases hr' with ⟨-, hw⟩ | hr' | hr' | hr'
      · exact ⟨hw, hf⟩
      all_goals rw [hp] at hr'; cases hr'
    split
    · rw [ends_pure]
      exact ⟨r', ht.less, rfl, hn⟩
    · rename_i ha
      have hpa : Pausable r' := by
        rcases hr' with ⟨hr', -⟩ | hr' | hr' | hr'
        · exact pausable_of_published hr'
        · exact .inl hr'
        · exact absurd (.inl hr') ha
        · exact absurd (.inr (.inr (.inr hr'))) ha
      rw [ends_bind]
      refine spec_beginPhase hs (fun e he => he) fun admission => ?_
      cases admission with
      | permit =>
        rw [ends_pure]
        exact ⟨r', ht.tick.less, rfl, hn⟩
      | park pause =>
        dsimp only
        rw [ends_bind]
        refine spec_parkRecord hs.settling hs.pauses ht.tick.toReady hpa fun r' t hr' ht => ?_
        rw [ends_pure]
        exact ⟨r', ht, rfl, fun hp => by rw [hp] at hr'; cases hr'⟩

theorem spec_finishPhase (h : Held w₀ r₀ (room + 6) w r) (hw : Won receipt r)
    (hst : r.snapshot.state = .published) {actor} (ha : r.actor = some actor)
    (hr : ∃ retry ∈ r.phaseRetries, retry.phase = .repair) :
    Spec (finishPhase codec env stop r .repair
        (reservationOf r actor)) w (fun _ => True)
      (Ends (fun e _ => e ≠ invalid) (RepairOver receipt w₀ r₀ room)) := by
  unfold finishPhase
  rw [ends_bind]
  refine spec_callHost ?_
  rw [ends_bind, ends_attempt]
  have hc : Held w₀ r₀ ((room + 4) + 2) _ r :=
    h.tick.setHost (env.host w.clock (stepRequest r .repair) w.host).1
  refine (spec_settlePhase hs (hs.repairs _ _ _) hc hw hst hr).ends ?_ ?_
  · intro e t ⟨he, ht⟩
    dsimp only
    rw [ends_bind]
    refine spec_releaseFailedPhase hs ht ha fun t => ?_
    rw [ends_fail]
    exact he
  · intro r' t ⟨ht, hr'⟩
    exact spec_concludePhase hs ht hr'

omit hs in
theorem begunPhase_sound (h : r.Sound) {actor} (hac : actor.Valid)
    (intent : Option IntegrationPushIntent) (now : Nat) :
    (begunPhase r .repair actor intent now).Sound := by
  have hr : (begunPhase r .repair actor intent now).phaseRetries =
      if r.phaseRetries.any (·.phase == .repair) then r.phaseRetries
      else r.phaseRetries ++ [⟨.repair, 0, .network, now⟩] := rfl
  exact { h with
    retries := by
      rw [hr]
      split
      · exact h.retries
      · rw [all_append, h.retries]
        rfl
    phases := by
      rw [hr]
      split
      · exact h.phases
      · rename_i hn
        rw [map_append, nodup_append]
        refine ⟨h.phases, by simp, ?_⟩
        intro phase hp other hot hsa
        obtain ⟨retry, hm, rfl⟩ := mem_map.mp hp
        obtain rfl : other = .repair := by simpa using hot
        exact hn (any_eq_true.mpr ⟨retry, hm, by simpa using hsa⟩)
    actor := fun a ha => Option.some.inj ha ▸ hac }

omit hs in
theorem begunPhase_retry (intent : Option IntegrationPushIntent) (actor : ProcessIdentity)
    (now : Nat) : ∃ retry ∈ (begunPhase r .repair actor intent now).phaseRetries,
      retry.phase = .repair := by
  change ∃ retry ∈ (if r.phaseRetries.any (·.phase == .repair) then r.phaseRetries
    else r.phaseRetries ++ [⟨.repair, 0, .network, now⟩]), retry.phase = .repair
  split
  · rename_i ha
    obtain ⟨retry, hm, hp⟩ := any_eq_true.mp ha
    exact ⟨retry, hm, by simpa using hp⟩
  · exact ⟨_, mem_append_right _ (mem_singleton.mpr rfl), rfl⟩

omit hs in
theorem Won.isSome (h : Won receipt r) : r.receipt.isSome := by
  obtain ⟨_, hk⟩ := h.kept
  rw [hk]
  rfl

theorem spec_hostPhase (h : Held w₀ r₀ (room + 10) w r) (hw : Won receipt r)
    (hst : r.snapshot.state = .published) (hf : r.actor = none) :
    Spec (hostPhase codec env stop r .repair) w (fun _ => True)
      (Ends (fun e _ => e ≠ invalid) (RepairOver receipt w₀ r₀ room)) := by
  have hp : Held w₀ r₀ ((room + 8) + 2) w r := h
  unfold hostPhase
  rw [ends_bind]
  refine spec_permit hs (fun _ _ he => he) hp hw.isSome (pausable_of_published hst)
    ?_ ?_
  · intro r t hr ht
    have hst := (resaved_state hr).trans hst
    have hf := (resaved_actor hr).trans hf
    have hw := hw.resaved hr
    dsimp only
    rw [ends_bind]
    refine spec_reserve hs.settling ht hf ?_ ?_ ?_
    · intro t hpr
      cases hpr
    · intro t ht
      dsimp only
      rw [ends_pure]
      exact ⟨r, ht.less, rfl, fun _ => ⟨hw, hf⟩⟩
    · intro t hac ht how
      dsimp only
      rw [ends_bind, spec_ask, true_and]
      rw [ends_bind, ends_lift]
      refine ⟨fun intent _ => ?_, nofun⟩
      rw [ends_bind, spec_ask, true_and]
      rw [ends_bind]
      generalize env.nowMillis t.tick.clock = now
      have hre : Ready w₀ r₀ ((room + 6) + 2) t.tick.tick
          (begunPhase r .repair env.actor intent now) := {
        frame := h.frame.trans { resaved_frame hr with }
        sound := begunPhase_sound ht.sound hac intent now
        task := ht.task
        policy := ht.policy
        prepared := ht.prepared
        stored := ht.stored
        reserved := by
          intro actor old ha hol
          cases ha
          exact (Option.mem_unique how hol).symm
        room := ht.room }
      refine spec_saveRecord hs.settling hs.pauses hre fun r' t hr' ht => ?_
      have hw' : Won receipt (begunPhase r .repair env.actor intent now) := { hw with }
      have hrt := begunPhase_retry (r := r) intent env.actor now
      obtain ⟨_, _, _, _, rfl⟩ := hr'
      rw [ends_bind, spec_consult, ht.load hs.settling, ok_answered]
      rw [if_neg (by simp [phaseStands]), ends_bind]
      refine spec_revokeSuperseded hs ht (Won.isSome { hw' with }) fun ht => ?_
      exact spec_finishPhase hs ht { hw' with } hst rfl hrt
  · intro r' t hr' ht
    dsimp only
    rw [ends_pure]
    exact ⟨r', ht.less, rfl, fun hpu => by rw [hpu] at hr'; cases hr'⟩

/-! ## The import -/

omit hs in
omit hs in
theorem integrated_sound (h : r.Sound) (hw : Won receipt r) : (integrated r).Sound := by
  exact { h with
    pauseReason := rfl
    resumeState := rfl
    restores := rfl
    blocked := nofun
    integrated := by
      intro _
      change r.snapshot.disposition.isSome ∧
        (r.snapshot.mergeOid.or r.snapshot.observedTargetOid).isSome
      rw [hw.disposition, hw.observed]
      exact ⟨rfl, by cases r.snapshot.mergeOid <;> rfl⟩
    parked := rfl
    pausedFor := nofun
    pauseDeadline := nofun }

theorem spec_finishImport {R} (h : Held w₀ r₀ (room + 2) w r) (hw : Won receipt r)
    (hR : ∀ a t, R a t) :
    Spec (release codec (integrated r) >>= fun record => saveRecord codec env record >>=
      fun record => pure record.snapshot) w (fun _ => True) (Ends E R) := by
  have hr : Ready w₀ r₀ (room + 2) w (integrated r) :=
    h.toReady.change (integrated_sound h.sound hw)
  rw [ends_bind]
  refine spec_release hs.settling hr fun t ht => ?_
  rw [ends_bind]
  refine spec_saveRecord hs.settling hs.pauses ht fun r' t _ _ => ?_
  rw [ends_pure]
  exact hR _ t

theorem spec_importReceipt (h : Held w₀ r₀ (room + 8) w r) (hw : Won receipt r)
    (hst : r.snapshot.state = .published) :
    Spec (importReceipt codec env stop r receipt false) w (fun _ => True)
      (Ends (fun e _ => e ≠ invalid) fun _ _ => True) := by
  unfold importReceipt
  rw [ends_bind, spec_askChecked]
  refine ⟨trivial, fun result hre => ?_, fun e he => ?_⟩
  swap
  · rintro rfl
    exact hs.importFails _ he
  obtain rfl := hs.imports _ _ hre
  rw [ends_bind, ends_lift, validateReceipt_frame hs h.frame, ok_answered]
  rw [ends_bind, ends_require]
  refine ⟨fun _ => ?_, fun hne => absurd rfl hne⟩
  have hrd : Ready w₀ r₀ ((room + 6) + 2) w.tick (imported r { receipt with imported := true }) :=
    h.tick.toReady.change
      { h.sound with receipt := fun _ hk => Option.some.inj hk ▸ receipt_validate hs true }
  have hw : Won receipt (imported r { receipt with imported := true }) :=
    { hw with kept := ⟨true, rfl⟩ }
  rw [ends_bind]
  refine spec_saveRecord hs.settling hs.pauses hrd fun r' t hr' ht => ?_
  have hw := hw.resaved hr'
  have hst := (resaved_state hr').trans hst
  dsimp only
  split
  · rw [ends_bind]
    have ht : Held w₀ r₀ ((room + 4) + 2) t r' := ht
    refine spec_permit hs (fun _ _ he => he) ht hw.isSome (pausable_of_published hst) ?_ ?_
    · intro r'' t hr'' ht
      have hw := hw.resaved hr''
      dsimp only
      rw [ends_bind]
      have ht : Held w₀ r₀ ((room + 2) + 2) t r'' := ht
      refine spec_saveRecord hs.settling hs.pauses ht.toReady fun r t hr ht => ?_
      rw [ends_bind, spec_askChecked]
      refine ⟨trivial, fun _ _ => ?_, fun e he => ?_⟩
      · exact spec_finishImport hs ht.tick (hw.resaved hr) fun _ _ => trivial
      · rintro rfl
        exact hs.closes _ _ he
    · intro r' t _ _
      dsimp only
      rw [ends_pure]
      trivial
  · have ht : Held w₀ r₀ ((room + 4) + 2) t r' := ht
    exact spec_finishImport hs ht hw fun _ _ => trivial

theorem spec_finishReceipt (h : Held w₀ r₀ (room + 22) w r) (hw : Won receipt r)
    (hk : r.receipt = some receipt) (hst : r.snapshot.state = .published)
    (hf : r.actor = none) :
    Spec (finishReceipt codec env stop r false) w (fun _ => True)
      (Ends (fun e _ => e ≠ invalid) fun _ _ => True) := by
  unfold finishReceipt
  rw [hk]
  dsimp only
  rw [if_neg (by simp), ends_bind]
  have h : Held w₀ r₀ ((room + 12) + 10) w r := h
  refine (spec_hostPhase hs h hw hst hf).ends (fun _ _ he => he) ?_
  rintro snapshot t ⟨r', ht, rfl, hov⟩
  split
  · rw [ends_pure]
    trivial
  · rename_i hm
    have hp : r'.snapshot.state = .published := by
      rw [not_or, not_not] at hm
      exact hm.1
    obtain ⟨hw, -⟩ := hov hp
    rw [ends_bind, spec_consult, ht.loaded hs.settling, ok_answered]
    rw [ends_bind]
    have ht : Held w₀ r₀ ((room + 10) + 2) t r' := ht
    refine spec_permit hs (fun _ _ he => he) ht hw.isSome (pausable_of_published hp)
      ?_ ?_
    · intro r t hr ht
      dsimp only
      rw [ends_bind]
      have ht : Held w₀ r₀ ((room + 8) + 2) t r := ht
      refine spec_saveRecord hs.settling hs.pauses ht.toReady fun r' t hr' ht => ?_
      have hre := hr.trans hr'
      exact spec_importReceipt hs ht (hw.resaved hre) ((resaved_state hre).trans hp)
    · intro r t _ _
      dsimp only
      rw [ends_pure]
      trivial

/-! ## The stop -/

omit hs in
theorem withStop_of_requested {t} (h : r.tombstone = some t) : withStop r t = r := by
  cases r
  cases h
  rfl

/-- A stop of this epoch that the host has not confirmed. -/
def OpenStop (r : IntegrationRecord) (t : IntegrationTombstone) : Prop :=
  t.acknowledged = false ∧ t.epoch = r.snapshot.epoch ∧ t.revision ≠ 0

theorem spec_requestStop {R} (h : Held w₀ r₀ (room + 2) w r)
    (hr : ∀ t, r.tombstone = some t → OpenStop r t)
    (hR : ∀ tombstone r' t, OpenStop r tombstone → (withStop r tombstone).Resaved r' →
      Held w₀ r₀ room t r' → R r' t) :
    Spec (requestStop codec env r) w (fun _ => True) (Ends E R) := by
  unfold requestStop
  split
  · rename_i tombstone hso
    rw [ends_pure]
    refine hR tombstone r w (hr _ hso) ?_ h.less
    rw [withStop_of_requested hso]
    exact .refl r
  · rw [ends_bind, ends_lift, nextRevision_of_lt (by have := h.room; omega), ok_answered]
    rw [ends_bind, spec_ask, true_and]
    have hrd : Ready w₀ r₀ (room + 2) w.tick (withStop r
        ⟨r.snapshot.epoch, r.snapshot.revision + 1, env.nowMillis w.clock, false⟩) :=
      h.tick.toReady.change { h.sound with }
    refine spec_saveRecord hs.settling hs.pauses hrd fun r' t hr' ht => ?_
    exact hR _ r' t ⟨rfl, rfl, Nat.succ_ne_zero _⟩ hr' ht

/-- Up to the test of the source, a stop that the push has won keeps the record's state. -/
theorem wonRecord_ready (tombstone : IntegrationTombstone) (h : Ready w₀ r₀ room w r) :
    Ready w₀ r₀ room w (wonRecord r tombstone receipt) := by
  have hr := receipt_validate hs receipt.imported
  refine h.change ?_
  exact { h.sound with
    integrated := by
      intro _
      change (some receipt.disposition).isSome = true ∧
        (receipt.mergeOid.or (some receipt.targetHead)).isSome = true
      exact ⟨rfl, by cases receipt.mergeOid <;> rfl⟩
    alreadyIntegrated := fun hd => ⟨(receipt_merge hr).1 (Option.some.inj hd), rfl⟩
    merged := fun hd => (receipt_merge hr).2 (Option.some.inj hd)
    receipt := fun _ hk => Option.some.inj hk ▸ hr }

theorem spec_stopWon {tombstone} (h : Held w₀ r₀ room w r) (ht : r.tombstone = some tombstone)
    (hR : Ready w₀ r₀ room w.tick r →
      Spec (release codec (wonPublished (wonRecord r tombstone receipt)) >>= fun record =>
      saveRecord codec env record >>= fun record => pure (true, record)) w.tick (fun _ => True)
      (Ends E R)) :
    Spec (stopWon codec env r receipt) w (fun _ => True) (Ends E R) := by
  obtain ⟨facts, hfa, has⟩ := hs.current w.clock
  have hr := (wonRecord_ready hs tombstone h.toReady).tick
  rw [← hr.sourceIsCurrent hs.settling hs.held] at has
  unfold stopWon
  rw [ends_bind, ends_lift, validateReceipt_frame hs h.frame, ok_answered]
  rw [ht]
  dsimp only
  rw [ends_bind, spec_askChecked, hfa, true_and, ok_answered]
  rw [ends_bind, spec_consult, has, ok_answered]
  exact hR h.toReady.tick

theorem spec_stopWon_published {tombstone} (h : Held w₀ r₀ (room + 2) w r)
    (hto : r.tombstone = some tombstone) (hw : r.snapshot.state ≠ .retryWait)
    (hp : r.snapshot.state ≠ .parked)
    (hR : ∀ r' t, Held w₀ r₀ room t r' → Won receipt r' → r'.receipt = some receipt →
      r'.snapshot.state = .published → r'.actor = none → R (true, r') t) :
    Spec (stopWon codec env r receipt) w (fun _ => True) (Ends E R) := by
  refine spec_stopWon hs h hto fun hr => ?_
  rw [ends_bind]
  have hso := published_sound hr.sound hw hp (receipt_validate hs receipt.imported)
  refine spec_release hs.settling (hr.change { hso with }) fun t ht => ?_
  rw [ends_bind]
  refine spec_saveRecord hs.settling hs.pauses ht fun r' t hr' ht => ?_
  rw [ends_pure]
  obtain ⟨_, _, _, _, rfl⟩ := hr'
  exact hR _ t ht ⟨⟨receipt.imported, rfl⟩, rfl, rfl, rfl⟩ rfl rfl rfl

/-! ### A state to restore that nothing clears -/

omit hs in
/-- A record whose state does not go with the state it should restore. -/
def Broken (r : IntegrationRecord) : Prop :=
  r.snapshot.resumeState.isSome ≠ IntegrationSnapshot.resumable r.snapshot.state

omit hs in
theorem Broken.validate (h : Broken r) (hp : r.policy.validate codec = .ok ()) :
    r.validate codec = .error invalid := by
  have hsn : r.snapshot.validate = .error invalid := if_neg fun hv => h hv.resumeState
  unfold IntegrationRecord.validate
  rw [hp, bind_ok, hsn]
  rfl

omit hs in
theorem spec_persistRecord_broken {R} (h : Broken r) (hp : r.policy.validate codec = .ok ())
    (hr : r.snapshot.revision + 1 < 2 ^ 64) :
    Spec (persistRecord codec env r) w (fun _ => True) (Ends (fun e _ => e = invalid) R) := by
  unfold persistRecord
  rw [ends_bind, ends_lift, nextRevision_of_lt hr, ok_answered]
  rw [ends_bind, spec_ask, true_and]
  generalize env.nowMillis w.clock = now
  have hb : Broken (stamped r (r.snapshot.revision + 1) now) := h
  have hrp : w.tick.replaceable codec r.snapshot.revision
      (stamped r (r.snapshot.revision + 1) now) = .error invalid := by
    unfold OwnerWorld.replaceable
    rw [hb.validate hp]
    rfl
  rw [ends_bind, spec_consult, hrp]
  exact ⟨nofun, fun e he => (Except.error.inj he).symm⟩

theorem spec_saveRecord_broken {R} (h : Broken r) (hp : r.policy.validate codec = .ok ())
    (hr : r.snapshot.revision + 1 < 2 ^ 64) :
    Spec (saveRecord codec env r) w (fun _ => True) (Ends (fun e _ => e = invalid) R) := by
  unfold saveRecord
  rw [ends_bind]
  unfold extendElapsedPauses
  split
  · rw [ends_pure]
    exact spec_persistRecord_broken h hp hr
  · rename_i gate hg
    rw [ends_bind, spec_ask, true_and]
    unfold extendElapsedPausesThrough
    split
    · rw [ends_pure]
      exact spec_persistRecord_broken h hp hr
    · obtain ⟨elapsed, hel⟩ :=
        hs.pauses gate hg w.tick.clock r.snapshot.updatedAtMillis (env.nowMillis w.clock)
      rw [ends_bind, spec_askChecked, hel, true_and, ok_answered]
      split
      · exact spec_persistRecord_broken h hp hr
      · rw [ends_pure]
        exact spec_persistRecord_broken h hp hr

/-- From a backoff or a pause, the record that keeps the receipt is refused. -/
theorem spec_stopWon_broken {tombstone} (h : Held w₀ r₀ (room + 1) w r)
    (ht : r.tombstone = some tombstone)
    (hst : r.snapshot.state = .retryWait ∨ r.snapshot.state = .parked) :
    Spec (stopWon codec env r receipt) w (fun _ => True) (Ends (fun e _ => e = invalid) R) := by
  have hb : r.snapshot.resumeState.isSome ≠ IntegrationSnapshot.resumable .published := by
    rw [h.sound.resumeState]
    rcases hst with hst | hst <;> rw [hst] <;> decide
  have hp : r.policy.validate codec = .ok () := by
    rw [h.frame.policy]
    exact hs.settling.valid.policy
  have hr : r.snapshot.revision + 1 < 2 ^ 64 := by have := h.room; omega
  refine spec_stopWon hs h ht fun hre => ?_
  rw [ends_bind]
  unfold release
  split
  · rw [ends_pure, ends_bind]
    exact spec_saveRecord_broken hs hb hp hr
  · rename_i actor ha
    rw [ends_bind]
    refine spec_releaseReservation hs.settling hre ha fun t _ _ => ?_
    rw [ends_pure, ends_bind]
    exact spec_saveRecord_broken hs hb hp hr

/-! ### The whole stop -/

omit hs in
theorem revokeRequest_frame (hf : r₀.Frame r) (tombstone : IntegrationTombstone) :
    revokeRequest r tombstone = revokeRequest r₀ tombstone := by
  unfold revokeRequest
  rw [hf.taskId, hf.integrationId]

/-- What the owner does once the host has answered a stop with a receipt. -/
def wonStop (codec : Codec) (env : OwnerEnv η)
    (stop : IntegrationSnapshot → OwnerM η IntegrationSnapshot) (r : IntegrationRecord)
    (receipt : IntegrationReceipt) : OwnerM η IntegrationSnapshot := do
  match ← stopWon codec env r receipt with
  | (false, record) => return record.snapshot
  | (true, record) => do
    discard (finishReceipt codec env stop record false)
    Prog.fail (.rejected .alreadyCommitted)

/-- The point of a stop at which the owner has the receipt in hand. -/
def HasReceipt (codec : Codec) (env : OwnerEnv η) (w₀ : OwnerWorld η) (r₀ : IntegrationRecord)
    (receipt : IntegrationReceipt) (stop : IntegrationSnapshot → OwnerM η IntegrationSnapshot)
    (room : Nat) (state : IntegrationStatus) (k : OwnerM η IntegrationSnapshot)
    (w : OwnerWorld η) : Prop :=
  ∃ r tombstone, Held w₀ r₀ room w r ∧ r.tombstone = some tombstone ∧ r.snapshot.state = state ∧
    k = wonStop codec env stop r receipt

theorem askStop_leads (h : Held w₀ r₀ (room + 2) w r)
    (hr : ∀ t, r.tombstone = some t → OpenStop r t) :
    Leads (askStop codec env stop r) w
      (HasReceipt codec env w₀ r₀ receipt stop room r.snapshot.state) := by
  unfold askStop
  refine leads_bind (spec_requestStop hs h hr fun tombstone r' t hop hr' ht => ?_)
  have hst := resaved_state hr'
  have hto : r'.tombstone = some tombstone := by
    obtain ⟨_, _, _, _, rfl⟩ := hr'
    rfl
  rw [hto]
  refine leads_bind (spec_callHost ?_)
  rw [revokeRequest_frame ht.frame, hs.answers]
  have hre : (revokeRequest r₀ tombstone).validate codec = .ok () := by
    refine then_eq_ok.mpr ⟨ensure_of ⟨rfl, nofun, fun _ => hop.2.2⟩, ?_⟩
    exact ensure_of ⟨rfl, rfl, rfl⟩
  obtain ⟨hrc, hsa⟩ := of_then hs.won
  obtain ⟨hid, hep, -⟩ := ensure_eq_ok.mp hsa
  have hep : receipt.epoch = tombstone.epoch := by
    rw [hep, hop.2.1, h.frame.epoch]
  refine leads_bind (ends_lift.mpr ?_)
  rw [validateFor_integrated hre hrc (congrArg some hid) hep]
  refine ⟨fun _ _ => leads_here ?_, nofun⟩
  exact ⟨r', tombstone, ht.tick.setHost _, hto, hst, rfl⟩

theorem revokeOwner_leads (stop : IntegrationSnapshot → OwnerM η IntegrationSnapshot) :
    Leads (revokeOwner codec env stop r₀.snapshot.revision) w₀
      (HasReceipt codec env w₀ r₀ receipt stop 24 r₀.snapshot.state) := by
  have hh : Held w₀ r₀ (24 + 2) w₀ r₀ := {
    frame := .refl r₀
    sound := hs.settling.valid.sound hs.phases
    task := rfl
    policy := rfl
    prepared := rfl
    stored := ⟨r₀, hs.held, .refl r₀, hs.settling.valid.sound hs.phases, rfl⟩
    reserved := hs.reserved
    room := by have := hs.room; omega
    held := hs.held }
  have hop : r₀.snapshot.state ≠ .integrated := by
    intro hst
    have := hs.underWay
    rw [hst] at this
    revert this
    decide
  have hf : r₀.tombstone.any (·.acknowledged) = false := by
    cases ht : r₀.tombstone with
    | none => rfl
    | some t => exact (hs.requested t ht).1
  unfold revokeOwner
  refine leads_bind (spec_consult.mpr ?_)
  rw [hh.loaded hs.settling]
  refine ⟨fun a ha => ?_, nofun⟩
  cases ha
  refine leads_bind (ends_require.mpr ⟨fun _ => ?_, fun hne => hne rfl⟩)
  refine leads_bind (ends_require.mpr ⟨fun _ => ?_, fun hne => hne hop⟩)
  rw [hf]
  exact askStop_leads hs hh hs.requested

end

/-! ## What a stop settles -/

/-- The stop stores the receipt in a valid record of a published or integrated cycle,
and does not fail as inconsistent. -/
def StopSettles (codec : Codec) (env : OwnerEnv η) (depth : Nat) (w : OwnerWorld η)
    (r : IntegrationRecord) (receipt : IntegrationReceipt) : Prop :=
  (∃ t ∈ (revokeCycle codec env depth r.snapshot.revision).exposed w, ∃ stored,
    t.record = some stored ∧ stored.validate codec = .ok () ∧ stored.receipt = some receipt ∧
      (stored.snapshot.state = .published ∨ stored.snapshot.state = .integrated)) ∧
  (revokeCycle codec env depth r.snapshot.revision).answer w ≠ .error invalid

theorem settles_of_active (hs : StopsWon codec env w r receipt) (depth : Nat)
    (hw : r.snapshot.state ≠ .retryWait) (hp : r.snapshot.state ≠ .parked) :
    StopSettles codec env depth w r receipt := by
  obtain ⟨k, t, ⟨r', tombstone, ht, hto, hst, rfl⟩, hr⟩ :=
    revokeOwner_leads hs (revokeForStop codec env depth)
  rw [← hst] at hw hp
  have ht : Held w r (22 + 2) t r' := ht
  constructor
  · -- The receipt is stored when the stop turns to the repair.
    have hsr : Leads (wonStop codec env (revokeForStop codec env depth) r' receipt) t
        fun _ t => ∃ stored, t.record = some stored ∧ stored.validate codec = .ok () ∧
          stored.receipt = some receipt ∧
          (stored.snapshot.state = .published ∨ stored.snapshot.state = .integrated) := by
      refine leads_bind (spec_stopWon_published hs ht hto hw hp ?_)
      intro stored t ht _ hk hpu _
      have hv := hs.settling.validated ht.frame ht.sound
      exact leads_here ⟨stored, ht.held, (IntegrationRecord.validate_eq_ok codec).mpr hv, hk,
        .inl hpu⟩
    obtain ⟨k, u, hu, hr'⟩ := hsr
    exact ⟨u, hr.exposed (hr'.exposed mem_cons_self), hu⟩
  · have hq : Spec (wonStop codec env (revokeForStop codec env depth) r' receipt) t
        (fun _ => True) (Ends (fun e _ => e ≠ invalid) fun _ _ => True) := by
      unfold wonStop
      rw [ends_bind]
      refine spec_stopWon_published hs ht hto hw hp ?_
      intro stored t ht hwo hk hpu hfr
      change Spec ((finishReceipt codec env _ stored false >>= fun _ => pure ()) >>= fun _ =>
        Prog.fail _) _ _ _
      rw [ends_bind, ends_bind]
      refine (spec_finishReceipt hs ht hwo hk hpu hfr).ends (fun _ _ he => he) ?_
      intro _ _ _
      rw [ends_pure, ends_fail]
      decide
    intro hf
    have hf := hr.answer.symm.trans hf
    have := hq.2
    rw [hf] at this
    exact this rfl

theorem fails_of_waiting (hs : StopsWon codec env w r receipt) (depth : Nat)
    (hst : r.snapshot.state = .retryWait ∨ r.snapshot.state = .parked) :
    (revokeCycle codec env depth r.snapshot.revision).answer w = .error invalid := by
  obtain ⟨k, t, ⟨r', tombstone, ht, hto, hsa, rfl⟩, hr⟩ :=
    revokeOwner_leads hs (revokeForStop codec env depth)
  rw [← hsa] at hst
  have hb : Spec (wonStop codec env (revokeForStop codec env depth) r' receipt) t
      (fun _ => True) (Ends (fun e _ => e = invalid) fun _ _ => False) := by
    unfold wonStop
    rw [ends_bind]
    exact spec_stopWon_broken hs ht hto hst
  have hen := hb.2
  refine hr.answer.trans ?_
  cases ha : (wonStop codec env (revokeForStop codec env depth) r' receipt).answer t with
  | ok a => rw [ha] at hen; exact hen.elim
  | error e => rw [ha] at hen; exact congrArg Except.error hen

/-- **A stop settles a won push unless the cycle waits.** In a backoff or a pause the
record has a state to restore; the stop publishes it without clearing that state, the
record is refused, and the receipt is lost. -/
theorem won_stop_settles_iff (hs : StopsWon codec env w r receipt) (depth : Nat) :
    StopSettles codec env depth w r receipt ↔
      r.snapshot.state ≠ .retryWait ∧ r.snapshot.state ≠ .parked := by
  constructor
  · intro hse
    constructor
    · intro hst
      exact hse.2 (fails_of_waiting hs depth (.inl hst))
    · intro hst
      exact hse.2 (fails_of_waiting hs depth (.inr hst))
  · intro ha
    exact settles_of_active hs depth ha.1 ha.2

end

/-! ## A lost push reply -/

def sampleFacts : IntegrationTaskFacts where
  ordinary := {
    info := ⟨⟨7⟩, none, sampleProject, ""⟩
    status := ⟨.open, some .done, some sourceHead, [⟨⟨1⟩, some .succeeded, some .done⟩]⟩
    runner := none
    abandonCode := none
    submissionIntentTurnId := none
    submissionRollbackTurnId := none
    fetchedHead := some sourceHead
    autoContinueIntent := none
    closeIntent := false
    reportedChecks := []
    maxFollowups := 5
    turnLimits := ⟨1000, none, none⟩ }
  sessionImportComplete := true
  continuationPending := false
  runnerPresent := false
  stopRequested := false
  closePending := false
  submissionPending := false
  auxiliaryPurpose := none

def wonReceipt : IntegrationReceipt :=
  ⟨⟨⟨7⟩, ⟨1⟩, sourceHead, sampleKey⟩, 0, ⟨1⟩, sourceHead, firstTarget, some mergeCommit, .merged,
    false, 4⟩

/-- An owner whose host answers every stop and every repair with the receipt. -/
def wonEnv : OwnerEnv Unit where
  nowMillis _ := 9
  actor := ⟨1, 1⟩
  exited _ _ := false
  beginPhase _ _ := .ok .permit
  facts _ := .ok sampleFacts
  sourceFacts _ := .ok sampleFacts
  gate := none
  observe _ turn := .ok ⟨turn, none, false, false⟩
  enqueue _ p := .ok p.followup.turnId
  importReceipt _ receipt := .ok { receipt with imported := true }
  closeIntegrated _ _ := .ok ()
  followup _ _ _ _ _ _ := .error invalid
  host _ request _ := ((), .ok (.integrated (.forRequest request) wonReceipt))

def cycleIn (state : IntegrationStatus) (resume : Option IntegrationStatus) : IntegrationRecord :=
  let record := sampleRecord 0 6
  { record with snapshot := { record.snapshot with
      state := state
      resumeState := resume
      retryAtMillis := resume.map fun _ => 2009
      attempts := 1 } }

def ownerOf (record : IntegrationRecord) : OwnerWorld Unit where
  task := ⟨7⟩
  clock := 0
  policy := some samplePolicy
  record := some record
  prepared _ := none
  reservations := []
  host := ()
  offers := []

theorem sampleFacts_current {record} (hv : record.validate sampleCodec = .ok ())
    (ht : record.taskId = ⟨7⟩) (hso : record.snapshot.sourceTurnId = ⟨1⟩) :
    (ownerOf record).sourceIsCurrentAsideFromStop sampleCodec record sampleFacts = .ok true := by
  have hl : (ownerOf record).load sampleCodec = .ok (some record) :=
    then_eq_ok.mpr ⟨hv, then_eq_ok.mpr ⟨ensure_of ht, rfl⟩⟩
  have hp : ∀ turn, (ownerOf record).loadPrepared sampleCodec turn = .ok none := by
    intro turn
    unfold OwnerWorld.loadPrepared
    rw [hl]
    rfl
  have hc : (ownerOf record).coversLatestOrdinaryWork sampleCodec sampleFacts.ordinary
      record.snapshot = .ok true := by
    refine bind_eq_ok.mpr ⟨none, hp _, ?_⟩
    rw [hso]
    rfl
  unfold OwnerWorld.sourceIsCurrentAsideFromStop OwnerWorld.ownerSourceIsCurrent
  refine bind_eq_ok.mpr ⟨true, hc, ?_⟩
  exact if_pos hso.symm

theorem wonEnv_stopsWon {state resume} (hv : (cycleIn state resume).validate sampleCodec = .ok ())
    (hst : state ∈ [.pending, .fetching, .resolving, .verifying, .commitReady, .pushing,
      .published, .retryWait, .parked]) :
    StopsWon sampleCodec wonEnv (ownerOf (cycleIn state resume)) (cycleIn state resume)
      wonReceipt where
  settling := {
    valid := (IntegrationRecord.validate_eq_ok sampleCodec).mp hv
    task := rfl
    policy := rfl
    references := rfl
    fits := by
      intro r hf
      change r.candidates.length ≤ _
      rw [hf.candidates]
      exact Nat.zero_le _ }
  held := rfl
  underWay := hst
  requested := nofun
  phases := nodup_nil
  reserved := nofun
  room := by change 6 + 32 < _; omega
  current := fun _ => ⟨sampleFacts, rfl, sampleFacts_current hv rfl rfl⟩
  won := rfl
  answers := fun _ _ _ => rfl
  pauses := nofun
  permits := nofun
  repairs := fun _ _ _ => ⟨rfl, rfl⟩
  imports := fun _ _ h => (Except.ok.inj h).symm
  importFails := nofun
  closes := nofun

theorem won_stop_settles_pushing :
    StopsWon sampleCodec wonEnv (ownerOf (cycleIn .pushing none)) (cycleIn .pushing none)
        wonReceipt ∧
      StopSettles sampleCodec wonEnv 0 (ownerOf (cycleIn .pushing none)) (cycleIn .pushing none)
        wonReceipt := by
  have hs := wonEnv_stopsWon (show (cycleIn .pushing none).validate sampleCodec = .ok () from rfl)
    (by decide)
  exact ⟨hs, (won_stop_settles_iff hs 0).mpr ⟨by decide, by decide⟩⟩

/-- The reply to a push is lost, and the cycle backs off; the push won. A stop then fails,
and no record that it leaves behind keeps the receipt. -/
theorem won_stop_lost : StopsWon sampleCodec wonEnv (ownerOf (cycleIn .retryWait (some .fetching)))
        (cycleIn .retryWait (some .fetching)) wonReceipt ∧
      (revokeCycle sampleCodec wonEnv 0 6).answer
        (ownerOf (cycleIn .retryWait (some .fetching))) = .error invalid ∧
      ∀ t ∈ (revokeCycle sampleCodec wonEnv 0 6).exposed
        (ownerOf (cycleIn .retryWait (some .fetching))),
        (t.record.bind (·.receipt)).isNone = true := by
  refine ⟨wonEnv_stopsWon rfl (by decide), rfl, ?_⟩
  decide

end MacWorker.Integration
