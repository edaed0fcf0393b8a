import MacWorker.Controller.StoreRuns

/-! # How often a request is executed

A drive executes a request whose row has no result, and saves what the executor
answers. The row with the result is measured only after the execution: a result
that does not fit is dropped, the row keeps waiting, and the next call executes
the request again. -/
namespace MacWorker.Controller
open Durable Fallible Json Relation List

variable {codec : Codec} {s t : Store} {id : RequestId} {row : DurableRequest}

def Fits (record : DurableRequest) (value : Value) : Prop :=
  textLen (record.withResult value).toJson ≤ maxStoredRequestBytes

def Done (s : Store) (id : RequestId) : Prop :=
  ∃ row, s.rows.lookup id = some row ∧ row.result ≠ none

theorem writes_continue (h : ReflTransGen Write s t) (hr : s.rows.lookup id = some row) :
    ∃ row', t.rows.lookup id = some row' ∧ Continues row row' := by
  refine Reach.invariant (p := fun u => ∃ row', u.rows.lookup id = some row' ∧ Continues row row')
    ?_ ⟨row, hr, .refl row⟩ h
  intro a b ha hw
  obtain ⟨mid, hm, hc⟩ := ha
  obtain ⟨row', hr', hn⟩ := hw.continues hm
  exact ⟨row', hr', hc.trans hn⟩

theorem Done.writes (h : Done s id) (hw : ReflTransGen Write s t) : Done t id := by
  obtain ⟨row, hr, hs⟩ := h
  obtain ⟨row', hr', hc⟩ := writes_continue hw hr
  exact ⟨row', hr', by rw [hc.result hs]; exact hs⟩

theorem Done.files (h : Done s id) (hw : ReflTransGen FileWrite s t) : Done t id :=
  h.writes (ReflTransGen.mono (fun _ _ => .file) _ _ hw)

/-- The acknowledgement of a stored row executes nothing, and a row that fits is stored
again as acknowledged. -/
theorem acknowledge_executions (hr : s.rows.lookup row.requestId = some row)
    (contended : StoreM ControllerAck) :
    Spec (do
      if ← exchange row row.acknowledged then answerSettled row.acknowledged
      else contended : StoreM ControllerAck) s (fun _ => True)
      fun _ t => t.executed = s.executed ∧ (textLen row.toJson ≤ maxStoredRequestBytes →
        t.rows.lookup row.requestId = some row.acknowledged) := by
  rw [spec_bind]
  refine spec_exchange hr (fun _ => ?_) fun hl _ => ⟨rfl, fun hf => ?_⟩
  · refine (spec_answerSettled row.acknowledged (Q := fun t => t.executed = s.executed ∧
      t.rows.lookup row.requestId = some row.acknowledged) fun active => ?_).mono
      (fun _ h => h) fun _ _ h => ⟨h.2.1, fun _ => h.2.2⟩
    exact ⟨rfl, AList.lookup_insert _⟩
  · exact absurd ((textLen_acknowledged row).trans hf) hl

variable (handler : CommandHandler)

theorem driveToAck_quiet (fuel : Nat) {record} (hh : Held s record)
    (hq : record.phase = .acked ∨ record.result ≠ none) :
    Tracks FileWrite (driveToAck codec handler fuel record) s anyFailure fun _ _ => True := by
  induction fuel generalizing s record with
  | zero => exact tracks_fail trivial
  | succ fuel ih =>
    unfold driveToAck
    by_cases hp : record.phase = .acked
    · rw [if_pos hp]
      exact answerSettled_tracks (hh.acked hp)
    · have hs : record.result ≠ none := hq.resolve_left hp
      have hd : Done s record.requestId := by
        obtain ⟨row, hro, -, hn⟩ := hh
        exact ⟨row, hro, fun h => hs (hn.mp h)⟩
      rw [if_neg hp, saveResult_saved hs]
      refine Tracks.bind (R := fun adopted t => adopted = .inl record ∧ t = s)
        (tracks_pure ⟨rfl, rfl⟩) fun adopted t _ ht => ?_
      obtain ⟨rfl, rfl⟩ := ht
      refine (acknowledge_tracks hs).bind fun done u hw hu => ?_
      cases done with
      | true => exact answerSettled_tracks (hu rfl)
      | false =>
        -- the row that is read instead has a result too
        refine Tracks.bind (R := fun other v => v = u ∧ Held u other ∧ other.result ≠ none)
          ?_ fun other v _ hv => ?_
        · refine readRow_tracks _ (fun row other hro hre => ⟨rfl, ?_⟩) fun _ => trivial
          obtain ⟨hot, hid⟩ := held_of_readRecord hro hre
          refine ⟨hot, fun hn => ?_⟩
          obtain ⟨row', hr', hr⟩ := hd.files hw
          cases hro.symm.trans hr'
          exact hr ((reparse_keeps (readRecord_ok hre).1).2.mp hn)
        obtain ⟨rfl, hot, hr⟩ := hv
        exact ih hot (.inr hr)

/-- What a drive of a stored row without a result does: one execution, and the
executor's result is saved exactly when the row can hold it. -/
structure ExecutedOnce (handler : CommandHandler) (attempt : Nat) (row : DurableRequest)
    (s t : Store) : Prop where
  executed : t.executed = s.executed ++ [⟨row, handler.execute attempt row⟩]
  saved : ∀ value, handler.execute attempt row = .ok value → Fits row value →
    t.rows.lookup row.requestId = some (row.withResult value).acknowledged
  unsaved : (∀ value, resultToSave row.command (handler.execute attempt row) = .ok value →
    ¬ Fits row value) → t.rows = s.rows

def Store.afterExecution (s : Store) (row : DurableRequest)
    (answer : Except ControllerError Value) : Store :=
  { s with executed := s.executed ++ [⟨row, answer⟩] }

theorem spec_saveResult (attempt : Nat) (hro : s.rows.lookup row.requestId = some row)
    (hr : row.result = none) {Q}
    (hs : ∀ value, resultToSave row.command (handler.execute attempt row) = .ok value →
      Fits row value → Q (.ok (.inl (row.withResult value)))
      { s.afterExecution row (handler.execute attempt row) with
      rows := s.rows.insert row.requestId (row.withResult value) })
    (hf : ∀ e, (∀ value, handler.execute attempt row = .ok value → ¬ Fits row value) →
      Q (.error e) (s.afterExecution row (handler.execute attempt row))) :
    Spec (saveResult codec handler attempt row) s (fun _ => True) Q := by
  unfold saveResult
  rw [hr]
  simp only
  rw [spec_bind, invoke, spec_bind, spec_write]
  refine ⟨trivial, spec_pure.mpr ?_⟩
  simp only
  rw [spec_bind, spec_lift]
  cases hv : resultToSave row.command (handler.execute attempt row) with
  | error e =>
    refine hf e fun value hok => ?_
    rw [hok, resultToSave] at hv
    cases hv
  | ok value =>
    simp only
    rw [spec_bind]
    refine spec_exchange (s := s.afterExecution row (handler.execute attempt row)) hro
      (fun hfi => ?_) fun hl e => ?_
    · simp only [if_true]
      exact spec_pure.mpr (hs value hv hfi)
    · refine hf e fun value' hok => ?_
      rw [hok, resultToSave] at hv
      cases hv
      exact hl

theorem driveToAck_executes (fuel : Nat) (hro : s.rows.lookup row.requestId = some row)
    (hp : row.phase ≠ .acked) (hr : row.result = none) :
    Spec (driveToAck codec handler (fuel + 1) row) s (fun _ => True) fun _ t =>
      ExecutedOnce handler fuel row s t := by
  unfold driveToAck
  rw [if_neg hp, spec_bind]
  refine spec_saveResult handler fuel hro hr (fun value hv hf => ?_) fun e hl => ?_
  · simp only
    refine (@acknowledge_executions _ (row.withResult value) (AList.lookup_insert _)
      _).mono (fun _ h => h) fun _ t ht => ?_
    refine ⟨ht.1, fun value' hok _ => ?_, fun hl => absurd hf (hl value hv)⟩
    rw [hok, resultToSave] at hv
    cases hv
    exact ht.2 hf
  · exact ⟨rfl, fun value hok hf => absurd hf (hl value hok), fun _ => rfl⟩

/-! ## Runs without crashes -/

/-- A call or a tick that runs to its end. -/
inductive Call (codec : Codec) (s t : Store) : Prop
  | handle (request : ControllerRequest) (handler : CommandHandler) (now : Nat)
      (h : t = (handleWith codec request handler now).final s)
  | tick (tick : Tick) (h : t = (tick.run codec).final s)

def Calls (codec : Codec) : Store → Store → Prop := ReflTransGen (Call codec)

/-- What the row freezes at its publication reads back as it was written, if at all. -/
structure ReadsBack (codec : Codec) (row : DurableRequest) : Prop where
  body : ∀ value, reread codec.number valueDepth row.body = some value → value = row.body
  prepared : ∀ value, reread codec.number valueDepth row.prepared = some value →
    value = row.prepared

def Lossless (codec : Codec) (s : Store) : Prop :=
  ∀ id row, s.rows.lookup id = some row → ReadsBack codec row

/-- Every result the executor returned fits into its row. -/
def AllFit (s : Store) : Prop :=
  ∀ e ∈ s.executed, ∀ value, e.answer = .ok value → Fits e.record value

/-- The results the executor returned are saved, and nothing was executed after it
returned one. -/
structure Sound (s : Store) : Prop where
  saved : ∀ e ∈ s.executed, ∀ value, e.answer = .ok value → Done s e.record.requestId
  once : s.executed.Pairwise fun a b =>
    a.record.requestId = b.record.requestId → ∀ value, a.answer ≠ .ok value

theorem Sound.quiet (h : Sound s) (hw : ReflTransGen Write s t)
    (hex : t.executed = s.executed) : Sound t := by
  refine ⟨?_, by rw [hex]; exact h.once⟩
  intro e he value hv
  rw [hex] at he
  exact (h.saved e he value hv).writes hw

theorem Sound.execute {handler attempt} (h : Sound s) (hw : ReflTransGen Write s t)
    (hro : s.rows.lookup row.requestId = some row) (hr : row.result = none)
    (hex : ExecutedOnce handler attempt row s t) (hf : AllFit t) : Sound t := by
  have hm : (⟨row, handler.execute attempt row⟩ : Execution) ∈ t.executed := by
    rw [hex.executed]
    exact mem_append_right _ mem_cons_self
  refine ⟨?_, ?_⟩
  · intro e he value hv
    rw [hex.executed] at he
    rcases mem_append.mp he with hol | hn
    · exact (h.saved e hol value hv).writes hw
    · obtain rfl := mem_singleton.mp hn
      exact ⟨_, hex.saved value hv (hf _ hm value hv), nofun⟩
  · rw [hex.executed, pairwise_append]
    refine ⟨h.once, pairwise_singleton _ _, ?_⟩
    intro a ha b hb hs value hv
    obtain rfl := mem_singleton.mp hb
    -- a result that was returned before is saved, but the row has none
    obtain ⟨row', hr', hsa⟩ := h.saved a ha value hv
    rw [hs] at hr'
    cases hro.symm.trans hr'
    exact hsa hr

theorem Lossless.earlier (h : Lossless codec t) (hw : ReflTransGen Write s t) :
    Lossless codec s := by
  intro id row hro
  obtain ⟨row', hr', hc⟩ := writes_continue hw hro
  have hr := h id row' hr'
  rw [hc.same] at hr
  exact ⟨hr.body, hr.prepared⟩

/-- What a complete program leaves behind: its writes, and soundness where the rows read
back and the results fit. -/
structure Settles (codec : Codec) (s t : Store) : Prop where
  writes : ReflTransGen Write s t
  sound : Lossless codec t → AllFit t → Sound s → Sound t

theorem executed_isPrefix (h : ReflTransGen Write s t) : s.executed <+: t.executed := by
  refine Reach.invariant (p := fun u => s.executed <+: u.executed) ?_ (prefix_refl _) h
  intro a b ha hw
  cases hw with
  | file hf => rwa [hf.executed]
  | execute => exact ha.trans (prefix_append _ _)

theorem Settles.trans {u} (h : Settles codec s t) (h' : Settles codec t u) : Settles codec s u := by
  refine ⟨h.writes.trans h'.writes, fun hl hf hs => ?_⟩
  refine h'.sound hl hf (h.sound (hl.earlier h'.writes) ?_ hs)
  exact fun e he => hf e ((executed_isPrefix h'.writes).subset he)

theorem settles_files (h : ReflTransGen FileWrite s t) : Settles codec s t := by
  have hex : t.executed = s.executed := by
    refine Reach.invariant (p := fun u => u.executed = s.executed) ?_ rfl h
    exact fun a b ha hf => hf.executed.trans ha
  have hw : ReflTransGen Write s t := ReflTransGen.mono (fun _ _ => .file) _ _ h
  exact ⟨hw, fun _ _ hs => hs.quiet hw hex⟩

/-- Run to its end, the program settles what it executes. -/
def Careful (codec : Codec) {α : Type} (m : StoreM α) (s : Store) : Prop :=
  Spec m s (fun _ => True) fun _ t => Settles codec s t

section
variable {α β : Type} {E : ControllerError → Store → Prop} {R : α → Store → Prop}

theorem careful_files {m} (h : Tracks FileWrite m s E R) : Careful codec m s := by
  refine Spec.mono h (fun _ _ => trivial) fun r t hr => ?_
  cases r with
  | ok a => exact settles_files hr.1
  | error e => exact settles_files hr.1

theorem Careful.bind {m : StoreM α} {f : α → StoreM β} (h : Careful codec m s)
    (hf : ∀ a t, Settles codec s t → Careful codec (f a) t) : Careful codec (m >>= f) s := by
  refine spec_bind.mpr (h.mono (fun _ h => h) fun r t ht => ?_)
  cases r with
  | error e => exact ht
  | ok a => exact (hf a t ht).mono (fun _ h => h) fun _ u hu => ht.trans hu

theorem careful_bind_files {m : StoreM α} {f : α → StoreM β} (h : Tracks FileWrite m s E R)
    (hf : ∀ a t, R a t → Careful codec (f a) t) : Careful codec (m >>= f) s := by
  refine spec_bind.mpr (Spec.mono h (fun _ _ => trivial) fun r t hr => ?_)
  cases r with
  | error e => exact settles_files hr.1
  | ok a => exact (hf a t hr.2).mono (fun _ h => h) fun _ u hu => (settles_files hr.1).trans hu

theorem careful_pure (a : α) : Careful codec (pure a) s := spec_pure.mpr (settles_files .refl)

theorem Careful.attempt {m : StoreM α} (h : Careful codec m s) : Careful codec m.attempt s :=
  spec_attempt.mpr h

end

theorem careful_driveToAck {record} (hro : s.rows.lookup record.requestId = some row)
    (hre : row.reparse codec = some record ∨ record = row) :
    Careful codec (driveToAck codec handler driveFuel record) s := by
  have hh := held_of_stored hro hre
  by_cases hq : record.phase = .acked ∨ record.result ≠ none
  · exact careful_files (driveToAck_quiet handler driveFuel hh hq)
  obtain ⟨hph, hr⟩ := not_or.mp hq
  have hr : record.result = none := not_not.mp hr
  have hw : ReflTransGen Write s ((driveToAck codec handler driveFuel record).final s) :=
    (driveToAck_tracks handler driveFuel hh).exposed _ (Prog.final_mem_exposed _ s)
  refine ⟨fun _ _ => trivial, hw, fun hl hf hso => ?_⟩
  have heq : record = row := by
    rcases hre with hp | rfl
    · obtain ⟨hb, hpr, -, hrc⟩ := reparse_eq_some.mp hp
      have hrd := hl.earlier hw record.requestId row hro
      rw [hrc, hrd.body _ hb, hrd.prepared _ hpr, hr, ← (reparse_keeps hp).2.mp hr]
    · rfl
  subst heq
  exact hso.execute hw hro hr (driveToAck_executes handler 3 hro hph hr).2 hf

theorem careful_closed : Closed codec handler anyFailure (Careful codec) where
  pure a _ := careful_pure a
  fail _ := spec_fail.mpr (settles_files .refl)
  files h hf := careful_bind_files h hf
  drive hro hre hf := (careful_driveToAck handler hro hre).attempt.bind fun answer t _ =>
    hf answer t

theorem careful_attemptAll (config : ActiveResumeConfig) (now : Nat) (busy : RequestId → Bool)
    (names : List String) :
    Careful codec (attemptAll codec handler config now busy names) s := by
  induction names generalizing s with
  | nil => exact careful_pure _
  | cons name names ih =>
    refine (attemptEntry_rule (careful_closed handler) config now busy name).bind fun _ _ _ => ?_
    exact ih.bind fun _ _ _ => careful_pure _

/-- A tick settles what it executes; the cursor it writes at its end does not matter. -/
theorem Tick.settles (tick : Tick) :
    ∃ t, Settles codec s t ∧ ∃ cursor, (tick.run codec).final s = { t with cursor := cursor } := by
  have hs : Spec (tick.run codec) s (fun _ => True) fun _ u =>
      ∃ t, Settles codec s t ∧ ∃ cursor, u = { t with cursor := cursor } := by
    refine spec_bind.mpr (spec_get.mpr (spec_bind.mpr ?_))
    refine (careful_attemptAll tick.handler tick.config tick.now tick.busy _).mono
      (fun _ h => h) fun r t ht => ?_
    cases r with
    | error e => exact ⟨t, ht, t.cursor, rfl⟩
    | ok attempted =>
      simp only
      split
      · exact spec_pure.mpr ⟨t, ht, t.cursor, rfl⟩
      · rw [persistCursor, spec_bind, spec_bind, spec_write]
        exact ⟨trivial, spec_pure.mpr (spec_pure.mpr ⟨t, ht, _, rfl⟩)⟩
  exact hs.2

theorem Sound.withCursor (h : Sound s) (cursor : Option (Option String)) :
    Sound { s with cursor := cursor } := ⟨h.saved, h.once⟩

/-- **What fits is executed once.** In any sequence of calls and ticks that run to their
end, if every result the executor returned fits into its row, and what the rows freeze
reads back as it was written, nothing is executed for a request after it returned a
result for it. -/
theorem executed_once (h : Calls codec Store.empty t) (hlossless : Lossless codec t)
    (hfit : AllFit t) :
    t.executed.Pairwise fun earlier later =>
      earlier.record.requestId = later.record.requestId → ∀ value, earlier.answer ≠ .ok value := by
  have hso : Lossless codec t → AllFit t → Sound t := by
    clear hlossless hfit
    induction h with
    | refl => exact fun _ _ => ⟨nofun, List.Pairwise.nil⟩
    | @tail u v _ hc ih =>
      intro hlossless hfit
      cases hc with
      | handle request handler now h =>
        subst h
        have hs : Settles codec u ((handleWith codec request handler now).final u) :=
          (handleWith_rule request (careful_closed handler) now).2
        refine hs.sound hlossless hfit (ih (hlossless.earlier hs.writes) ?_)
        exact fun e he => hfit e ((executed_isPrefix hs.writes).subset he)
      | tick tick h =>
        obtain ⟨w, hs, cursor, heq⟩ := tick.settles (s := u)
        rw [h, heq] at hlossless hfit ⊢
        have hl' : Lossless codec w := hlossless
        refine (hs.sound hl' hfit (ih (hl'.earlier hs.writes) ?_)).withCursor cursor
        exact fun e he => hfit e ((executed_isPrefix hs.writes).subset he)
  exact (hso hlossless hfit).once

/-! ## A result that does not fit -/

theorem reportFailure_final {drive : StoreM ControllerAck} {P : Store → Prop}
    (h : Spec drive s (fun _ => True) fun _ t => P t) :
    Spec (reportFailure codec id drive) s (fun _ => True) fun _ t => P t := by
  unfold reportFailure
  rw [spec_bind, spec_attempt]
  refine h.mono (fun _ h => h) fun answer t ht => ?_
  cases answer with
  | ok ack => exact spec_pure.mpr ht
  | error error =>
    have hl : ∃ r, (loadLocked codec id).attempt t = ([], .ok r) := by
      cases hro : t.rows.lookup id with
      | none =>
        refine ⟨.ok none, ?_⟩
        rw [Prog.attempt, loadLocked, Prog.bind_of_reads (Prog.get_reads t), hro]
        rfl
      | some row =>
        rw [Prog.attempt, loadLocked_of_row hro]
        exact ⟨_, rfl⟩
    obtain ⟨r, hr⟩ := hl
    simp only
    rw [spec_bind, spec_of_reads hr]
    rcases r with e | (_ | row)
    · exact spec_fail.mpr ht
    · exact spec_fail.mpr ht
    · simp only
      split <;> exact spec_fail.mpr ht

def receiptOf (codec : Codec) (request : ControllerRequest) (now : Nat) : PendingReceipt where
  requestId := request.requestId
  payloadSha256 := request.payloadSha256 codec.sha256
  command := request.command
  createdAtMillis := now

def Store.published (codec : Codec) (s : Store) (request : ControllerRequest)
    (opMeta : OperationMeta) (now : Nat) : Store :=
  { s with
    active := s.active.insert (activeFileName request.requestId) (receiptOf codec request now)
    rows := s.rows.insert request.requestId (publishedRecord codec request opMeta) }

/-- A request that is new to the store is published and driven. -/
theorem spec_handleWith_new {request handler now opMeta Q}
    (hro : s.rows.lookup request.requestId = none)
    (hr : s.active.lookup (activeFileName request.requestId) = none)
    (hp : handler.prepare request = .ok opMeta)
    (hs : textLen (receiptOf codec request now).toJson ≤ maxStoredRequestBytes)
    (hf : textLen (publishedRecord codec request opMeta).toJson ≤ maxStoredRequestBytes)
    (hd : Spec (reportFailure codec request.requestId
      (driveToAck codec handler driveFuel (publishedRecord codec request opMeta)))
      (s.published codec request opMeta now) (fun _ => True) Q) :
    Spec (handleWith codec request handler now) s (fun _ => True) Q := by
  have hl : loadLocked codec request.requestId s = ([], .ok none) := by
    rw [loadLocked, Prog.bind_of_reads (Prog.get_reads s), hro]
    rfl
  have hs' : ensureStoredSize (receiptOf codec request now).toJson = .ok () := ensure_of hs
  have hf' : ensureStoredSize (publishedRecord codec request opMeta).toJson = .ok () := ensure_of hf
  have hw : Spec (writePendingReceipt (receiptOf codec request now)) s (fun _ => True)
      fun answer t => answer = .ok () ∧ t = { s with
        active := s.active.insert (activeFileName request.requestId)
          (receiptOf codec request now) } := by
    rw [writePendingReceipt, hs', spec_bind, spec_lift]
    simp only
    rw [spec_bind, spec_get]
    simp only
    rw [spec_bind, spec_require]
    refine ⟨fun _ => spec_write.mpr ⟨trivial, rfl, rfl⟩, fun hex => absurd hr hex⟩
  unfold handleWith
  rw [spec_bind, spec_of_reads hl]
  simp only
  rw [spec_bind, ensurePendingReceipt, spec_bind, spec_attempt]
  refine hw.mono (fun _ h => h) fun answer t ht => ?_
  obtain ⟨rfl, rfl⟩ := ht
  simp only
  rw [spec_pure]
  simp only [hp]
  rw [spec_bind, publishWith, hf', spec_bind, spec_lift]
  simp only
  rw [spec_bind, spec_get]
  simp only [hro]
  rw [spec_bind, putRow, spec_write]
  exact ⟨trivial, spec_pure.mpr hd⟩

theorem spec_handleWith_row {request handler now Q}
    (hro : s.rows.lookup request.requestId = some row)
    (hr : readRecord codec request.requestId row = .ok row)
    (hd : row.payloadSha256 = request.payloadSha256 codec.sha256)
    (hc : row.command = request.command) (hdr : Spec (reportFailure codec request.requestId
      (driveToAck codec handler driveFuel row)) s (fun _ => True) Q) :
    Spec (handleWith codec request handler now) s (fun _ => True) Q := by
  have hl : loadLocked codec request.requestId s = ([], .ok (some row)) := by
    rw [loadLocked_of_row hro, hr]
    rfl
  have hre : checkReplay codec row request = .ok () :=
    checkReplayByParts_eq_ok.mpr ⟨(readRecord_ok hr).2, hd, hc⟩
  unfold handleWith
  rw [spec_bind, spec_of_reads hl]
  simp only
  rw [spec_bind, hre, spec_lift]
  exact hdr

/-- Where nothing could be saved of what the executor answered, the retry executes the request
again. -/
theorem executed_again {request : ControllerRequest} {handler handler' : CommandHandler}
    {opMeta : OperationMeta} (now : Nat) (hpu : publishedRecord codec request opMeta = row)
    (hro : s.rows.lookup request.requestId = none)
    (hre : s.active.lookup (activeFileName request.requestId) = none)
    (hp : handler.prepare request = .ok opMeta)
    (hsi : textLen (receiptOf codec request now).toJson ≤ maxStoredRequestBytes)
    (hr : readRecord codec request.requestId row = .ok row)
    (hl : ∀ value, resultToSave row.command (handler.execute 3 row) = .ok value →
      ¬ Fits row value) :
    ∃ t u, Call codec s t ∧ Call codec t u ∧ u.executed = s.executed ++
      [⟨row, handler.execute 3 row⟩, ⟨row, handler'.execute 3 row⟩] := by
  subst hpu
  have hs : (s.published codec request opMeta now).rows.lookup request.requestId =
      some (publishedRecord codec request opMeta) := AList.lookup_insert _
  have hf := (spec_handleWith_new hro hre hp hsi (readRecord_self.mp hr).1
    (reportFailure_final (driveToAck_executes handler 3 hs nofun rfl))).2
  have hk : ((handleWith codec request handler now).final s).rows.lookup request.requestId =
      some (publishedRecord codec request opMeta) := by
    rw [hf.unsaved hl]
    exact hs
  have hse : ExecutedOnce handler' 3 _ _ ((handleWith codec request handler' now).final _) :=
    (spec_handleWith_row hk hr rfl rfl
      (reportFailure_final (driveToAck_executes handler' 3 hk nofun rfl))).2
  refine ⟨_, _, .handle request handler now rfl, .handle request handler' now rfl, ?_⟩
  rw [hse.executed, hf.executed, append_assoc]
  rfl

/-! ### Sample requests -/

section

def sampleCodec : Codec where
  sha256 text := text
  number := some

def sampleRequest : ControllerRequest where
  requestId := ⟨"00000000000000000000000000000001", by decide⟩
  command := "checkpoint.submit"
  body := .obj []
  object := ⟨[], rfl⟩

def sampleMeta : OperationMeta where
  taskId := none
  turnId := none
  createdAtMillis := 5
  prepared := .null

def answering (value : Value) : CommandHandler where
  prepare _ := .ok sampleMeta
  execute _ _ := .ok value

theorem sampleCodec_lossless (s : Store) : Lossless sampleCodec s := by
  have hn : ∀ n m, sampleCodec.number n = some m → m = n := fun n m h =>
    (Option.some.inj h).symm
  exact fun _ _ _ => ⟨reread_eq hn _ _, reread_eq hn _ _⟩

theorem sampleDigest : sampleRequest.payloadSha256 sampleCodec.sha256 =
    String.ofList (render (identity protocolVersion "checkpoint.submit" (.obj []))) := by
  have hb : canonical (.obj []) = .obj [] := by
    simp [canonical, canonicalMembers, sortBy]
  show String.ofList (render (canonical (identity _ _ _))) = _
  rw [canonical_identity]
  show String.ofList (render (identity _ _ (canonical (.obj [])))) = _
  rw [hb]
  rfl

def sampleRecord : DurableRequest := publishedRecord sampleCodec sampleRequest sampleMeta

theorem sampleReceipt_fits :
    textLen (receiptOf sampleCodec sampleRequest 7).toJson ≤ maxStoredRequestBytes := by
  simp only [PendingReceipt.toJson, receiptOf]
  rw [sampleDigest]
  decide +kernel

theorem sampleRecord_fits : textLen sampleRecord.toJson ≤ maxStoredRequestBytes := by
  simp only [DurableRequest.toJson, sampleRecord, publishedRecord]
  rw [sampleDigest]
  decide +kernel

theorem sampleRecord_reads :
    readRecord sampleCodec sampleRequest.requestId sampleRecord = .ok sampleRecord := by
  refine readRecord_self.mpr ⟨sampleRecord_fits, rfl, ?_⟩
  unfold validateRecord
  refine then_eq_ok.mpr ⟨ensure_of rfl, then_eq_ok.mpr ⟨ensure_of rfl, ?_⟩⟩
  refine then_eq_ok.mpr ⟨rfl, then_eq_ok.mpr ⟨rfl, ?_⟩⟩
  exact then_eq_ok.mpr ⟨ensure_of rfl, ensure_of rfl⟩

/-- A result that uses the reserved member for something else. -/
def reservedResult : Value := .obj [(rejectionKey, .null)]

theorem sampleResults_fit : ∀ value ∈ [.null, reservedResult], Fits sampleRecord value := by
  simp only [Fits, DurableRequest.withResult, DurableRequest.toJson, sampleRecord, publishedRecord]
  rw [sampleDigest]
  decide +kernel

/-- A text as long as the largest row. -/
@[irreducible] def largeResult : Value :=
  .str (String.ofList (List.replicate maxStoredRequestBytes 'a'))

theorem textLen_lt_withResult (record : DurableRequest) (value : Value) :
    textLen value < textLen (record.withResult value).toJson := by
  simp only [DurableRequest.withResult, DurableRequest.toJson, cons_append,
    textLen_obj_cons, map_cons, map_append, sum_cons, sum_append,
    nil_append, optionalMember, Option.map_some, Option.toList_some, memberLen]
  omega

theorem largeResult_unfit (record : DurableRequest) : ¬ Fits record largeResult := by
  have hl : maxStoredRequestBytes ≤ textLen largeResult := by
    rw [largeResult]
    refine le_trans ?_ (length_le_textLen_str _)
    rw [String.length_ofList, length_replicate]
  exact not_le_of_gt (lt_of_le_of_lt hl (textLen_lt_withResult record largeResult))

theorem sampleRequest_executed (value : Value) : ExecutedOnce (answering value) 3 sampleRecord
      (Store.empty.published sampleCodec sampleRequest sampleMeta 7)
      ((handleWith sampleCodec sampleRequest (answering value) 7).final Store.empty) :=
  (spec_handleWith_new rfl rfl rfl sampleReceipt_fits sampleRecord_fits
    (reportFailure_final (driveToAck_executes _ 3 (AList.lookup_insert _) nofun rfl))).2

/-- The executor fails, and the retry returns a result. -/
theorem executed_once_null : ∃ t, Calls sampleCodec Store.empty t ∧
    t.executed = [⟨sampleRecord, .error .io⟩, ⟨sampleRecord, .ok .null⟩] ∧
    t.executed.Pairwise fun earlier later =>
      earlier.record.requestId = later.record.requestId →
        ∀ value, earlier.answer ≠ .ok value := by
  obtain ⟨t, u, ht, hu, he⟩ := @executed_again sampleCodec Store.empty sampleRecord sampleRequest
    { answering .null with execute := fun _ _ => .error .io } (answering .null) sampleMeta 7
    rfl rfl rfl rfl sampleReceipt_fits sampleRecord_reads nofun
  have hc : Calls sampleCodec Store.empty u := (ReflTransGen.single ht).tail hu
  refine ⟨u, hc, he, executed_once hc (sampleCodec_lossless _) fun e hin value hv => ?_⟩
  rw [he] at hin
  rcases mem_pair.mp hin with rfl | rfl
  · cases hv
  · cases hv
    exact sampleResults_fit _ (by simp)

/-- The executor returned a result, and the retry executes the request again. -/
theorem large_result_executed_again : ∃ t u, Call sampleCodec Store.empty t ∧ Call sampleCodec t u ∧
      u.executed = [⟨sampleRecord, .ok largeResult⟩, ⟨sampleRecord, .ok largeResult⟩] :=
  @executed_again sampleCodec Store.empty sampleRecord sampleRequest (answering largeResult)
    (answering largeResult) sampleMeta 7 rfl rfl rfl rfl sampleReceipt_fits sampleRecord_reads
    (by rintro _ ⟨⟩; exact largeResult_unfit _)

end

end MacWorker.Controller
