import MacWorker.Controller.StoreExecutions

/-! # The outcome of a request

Who asks for an id that has a row gets the outcome of that row or is refused: the
answer is the settled row, and a request that differs from the stored one changes
nothing. -/
namespace MacWorker.Controller
open Durable Fallible Json Relation

variable {codec : Codec} {s t : Store} {id : RequestId} {row : DurableRequest}

/-! ## Answers for a request that has a row -/

/-- A request that reuses the id of a row for something else is refused before
anything is written or executed. -/
theorem handleWith_conflict {request} (handler : CommandHandler) (now : Nat)
    (hro : s.rows.lookup request.requestId = some row)
    (hd : request.payloadSha256 codec.sha256 ≠ row.payloadSha256 ∨ request.command ≠ row.command) :
    ∃ error, handleWith codec request handler now s = ([], .error error) := by
  have hl : loadLocked codec request.requestId s =
      ([], (readRecord codec request.requestId row).map some) := loadLocked_of_row hro
  unfold handleWith
  cases hr : readRecord codec request.requestId row with
  | error e =>
    rw [hr] at hl
    exact ⟨e, Prog.bind_of_error hl⟩
  | ok record =>
    rw [hr] at hl
    rw [Prog.bind_of_reads hl]
    obtain ⟨-, -, -, hsa⟩ := reparse_eq_some.mp (readRecord_ok hr).1
    cases hre : checkReplay codec record request with
    | error e => exact ⟨e, Prog.bind_of_error (by rw [hre]; rfl)⟩
    | ok u =>
      obtain ⟨-, hs, hs'⟩ := checkReplayByParts_eq_ok.mp hre
      rw [hsa] at hs hs'
      rcases hd with hne | hne
      · exact absurd hs.symm hne
      · exact absurd hs'.symm hne

theorem readRecord_withResult {value} (h : readRecord codec id row = .ok row) (hf : Fits row value)
    (hv : reread codec.number valueDepth value = some value) :
    readRecord codec id (row.withResult value) = .ok (row.withResult value) := by
  obtain ⟨-, hp, hva⟩ := readRecord_self.mp h
  refine readRecord_self.mpr ⟨hf, ?_, hva⟩
  obtain ⟨hb, hpr, -, -⟩ := reparse_eq_some.mp hp
  refine reparse_eq_some.mpr ⟨hb, hpr, ?_, rfl⟩
  show (some value).mapM _ = some (some value)
  simp [hv]

theorem driveToAck_settled (handler : CommandHandler) (fuel : Nat)
    (hro : s.rows.lookup row.requestId = some row) (hs : row.result ≠ none)
    (hr : readRecord codec row.requestId row = .ok row) :
    Spec (driveToAck codec handler (fuel + 1) row) s (fun _ => True) fun answer t =>
      answer = settled row.acknowledged ∧ t.rows.lookup row.requestId = some row.acknowledged := by
  unfold driveToAck
  by_cases hp : row.phase = .acked
  · rw [if_pos hp, acknowledged_of_acked hp]
    exact spec_answerSettled row fun _ => hro
  · rw [if_neg hp, saveResult_saved hs, spec_bind, spec_pure]
    simp only
    rw [spec_bind]
    refine spec_exchange hro (fun _ => ?_) fun hl => absurd ?_ hl
    · exact spec_answerSettled _ fun _ => AList.lookup_insert _
    · exact (textLen_acknowledged row).trans (readRecord_self.mp hr).1

theorem reportFailure_settled {drive} (hr : readRecord codec id row = .ok row)
    (hd : Spec drive s (fun _ => True) fun answer t =>
      answer = settled row ∧ t.rows.lookup id = some row) :
    Spec (reportFailure codec id drive) s (fun _ => True) fun answer _ =>
      answer = settled row := by
  unfold reportFailure
  rw [spec_bind, spec_attempt]
  refine hd.mono (fun _ h => h) fun answer t ht => ?_
  obtain ⟨ha, hro⟩ := ht
  cases answer with
  | ok ack => exact spec_pure.mpr ha
  | error error =>
    have hl : loadLocked codec id t = ([], .ok (some row)) := by
      rw [loadLocked_of_row hro, hr]
      rfl
    have hre : savedRejection row.result ≠ .ok none := by
      intro hn
      rw [settled, hn] at ha
      cases ha
    simp only
    rw [spec_bind, spec_attempt, spec_of_reads hl]
    simp only
    exact spec_fail.mpr ha

/-- **The answer for a request whose result is saved.** -/
theorem handleWith_settled {request} (handler : CommandHandler) (now : Nat)
    (hro : s.rows.lookup request.requestId = some row) (hs : row.result ≠ none)
    (hr : readRecord codec request.requestId row = .ok row)
    (hd : request.payloadSha256 codec.sha256 = row.payloadSha256)
    (hc : request.command = row.command) :
    (handleWith codec request handler now).answer s = settled row.acknowledged := by
  have hid : row.requestId = request.requestId := (readRecord_ok hr).2
  have hdr : Spec (driveToAck codec handler driveFuel row) s (fun _ => True) fun answer t =>
      answer = settled row.acknowledged ∧
        t.rows.lookup request.requestId = some row.acknowledged := by
    rw [← hid] at hro hr ⊢
    exact driveToAck_settled handler 3 hro hs hr
  exact (spec_handleWith_row hro hr hd.symm hc.symm
    (reportFailure_settled (readRecord_acknowledged hr) hdr)).2

/-! ## Identity and results -/

/-- **Requests keep their identity and their outcome.** Whatever calls and ticks run,
and wherever they are cut off: an id has at most one row; a row keeps everything
but its phase and its result; a saved result stays, and its request is never
executed again; where the stored row reads back as written, every later call for
it answers with the settled row; and a call that reuses the id for another
command or body is refused with nothing written and nothing executed. -/
theorem requests_keep_outcome (h : Run codec s t) : (∀ id, t.rows.keys.count id ≤ 1) ∧
    (∀ id row, s.rows.lookup id = some row → ∃ row', t.rows.lookup id = some row' ∧
      row' = { row with phase := row'.phase, result := row'.result }) ∧
    (∀ id row value, s.rows.lookup id = some row → row.result = some value →
      t.executions id = s.executions id ∧
      ∃ row', t.rows.lookup id = some row' ∧ row'.result = some value ∧
        ∀ (request : ControllerRequest) (handler : CommandHandler) (now : Nat),
          request.requestId = id → request.payloadSha256 codec.sha256 = row.payloadSha256 →
          request.command = row.command →
          (∀ u ∈ (handleWith codec request handler now).exposed t,
            u.executions id = t.executions id) ∧
          (readRecord codec id row' = .ok row' →
            (handleWith codec request handler now).answer t = settled row'.acknowledged ∧
            (value.get rejectionKey = none → ∃ ack,
              (handleWith codec request handler now).answer t = .ok ack ∧
                ack.result = some value))) ∧
    (∀ row (request : ControllerRequest) (handler : CommandHandler) (now : Nat),
      t.rows.lookup request.requestId = some row →
      request.payloadSha256 codec.sha256 ≠ row.payloadSha256 ∨ request.command ≠ row.command →
      ∃ error, handleWith codec request handler now t = ([], .error error)) := by
  refine ⟨fun id => List.nodup_iff_count_le_one.mp t.rows.keys_nodup id, ?_, ?_, ?_⟩
  · intro id row hro
    obtain ⟨row', hr', hc⟩ := h.continues hro
    exact ⟨row', hr', hc.same⟩
  · intro id row value hro hv
    have hs : row.result ≠ none := by simp [hv]
    obtain ⟨row', hr', hc⟩ := h.continues hro
    have hv' : row'.result = some value := (hc.result hs).trans hv
    have hs' : row'.result ≠ none := by simp [hv']
    refine ⟨h.executions hro hs, row', hr', hv', ?_⟩
    intro request handler now hid hd hco
    refine ⟨fun u hu => ?_, fun hr => ?_⟩
    · have hst : Run codec t u := .single (.handle request handler now hu)
      exact hst.executions hr' hs'
    · subst hid
      have ha : (handleWith codec request handler now).answer t = settled row'.acknowledged := by
        refine handleWith_settled handler now hr' hs' hr ?_ ?_
        · rw [hc.same]
          exact hd
        · rw [hc.same]
          exact hco
      refine ⟨ha, fun hp => ⟨ackFrom row'.acknowledged, ?_, hv'⟩⟩
      rw [ha]
      simp [settled, savedRejection, DurableRequest.acknowledged, hv', hp]
  · intro row request handler now hro hdi
    exact handleWith_conflict handler now hro hdi

/-! ### Sample results -/

section

theorem sampleRecord_withResult_reads {value} (hf : Fits sampleRecord value)
    (hv : reread sampleCodec.number valueDepth value = some value) :
    readRecord sampleCodec sampleRequest.requestId (sampleRecord.withResult value) =
      .ok (sampleRecord.withResult value) :=
  readRecord_withResult sampleRecord_reads hf hv

theorem requests_keep_outcome_null :
    let first := (handleWith sampleCodec sampleRequest (answering .null) 7).final Store.empty
    let again := handleWith sampleCodec sampleRequest (answering (.bool true)) 8
    ∃ ack, again.answer (again.final first) = .ok ack ∧ ack.result = some .null := by
  intro first again
  have hro : first.rows.lookup sampleRequest.requestId =
      some (sampleRecord.withResult .null).acknowledged :=
    (sampleRequest_executed .null).saved .null rfl (sampleResults_fit _ (by simp))
  have hr := sampleRecord_withResult_reads (sampleResults_fit .null (by simp)) rfl
  have hru : Run sampleCodec first (again.final first) :=
    .single (.handle sampleRequest (answering (.bool true)) 8 (Prog.final_mem_exposed _ _))
  obtain ⟨-, hs, hk, -⟩ := requests_keep_outcome hru
  obtain ⟨row', hro', heq⟩ := hs _ _ hro
  obtain ⟨-, row'', hr'', hv, hc⟩ := hk _ _ .null hro rfl
  cases hro'.symm.trans hr''
  have hr' : readRecord sampleCodec sampleRequest.requestId row' = .ok row' := by
    have ha := readRecord_acknowledged hr
    rw [heq, hv]
    cases row'.phase with
    | published => exact hr
    | acked => exact ha
  exact ((hc sampleRequest (answering (.bool true)) 8 rfl rfl rfl).2 hr').2 rfl

/-- The result is saved, and the retry is refused instead of answered with it. -/
theorem reserved_result_refused :
    let call := handleWith sampleCodec sampleRequest (answering reservedResult) 7
    let first := call.final Store.empty
    (∃ row, first.rows.lookup sampleRequest.requestId = some row ∧
      row.result = some reservedResult) ∧
    call.answer first = .error invalidRejection := by
  intro call first
  have hro : first.rows.lookup sampleRequest.requestId =
      some (sampleRecord.withResult reservedResult).acknowledged :=
    (sampleRequest_executed reservedResult).saved reservedResult rfl (sampleResults_fit _ (by simp))
  have hr := sampleRecord_withResult_reads (sampleResults_fit reservedResult (by simp)) rfl
  refine ⟨⟨_, hro, rfl⟩, ?_⟩
  exact handleWith_settled (answering reservedResult) 7 hro nofun (readRecord_acknowledged hr)
    rfl rfl

end

end MacWorker.Controller
