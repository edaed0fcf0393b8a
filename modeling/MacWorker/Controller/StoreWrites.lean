import MacWorker.Controller.Store

/-! # What the calls of the request store write

`Write` lists the durable writes of the store with the situation in which each is made.
Every write of `handleWith` and of a tick is one of them (`tracks_closed`, `handleWith_rule`,
`resumeActiveBounded_tracks`), so what these writes keep holds at every durable
boundary. -/
namespace MacWorker.Controller
open Durable Fallible Json Relation

structure Indexes (receipt : PendingReceipt) (row : DurableRequest) : Prop where
  requestId : receipt.requestId = row.requestId
  payloadSha256 : receipt.payloadSha256 = row.payloadSha256
  command : receipt.command = row.command

inductive FileWrite : Store → Store → Prop
  | receipt {s : Store} {receipt : PendingReceipt}
      (hnew : s.active.lookup (activeFileName receipt.requestId) = none) :
      FileWrite s { s with active := s.active.insert (activeFileName receipt.requestId) receipt }
  | publish {s : Store} {row : DurableRequest} {receipt : PendingReceipt}
      (hnew : s.rows.lookup row.requestId = none) (hresult : row.result = none)
      (hreceipt : s.active.lookup (activeFileName row.requestId) = some receipt)
      (hindexes : Indexes receipt row) :
      FileWrite s { s with rows := s.rows.insert row.requestId row }
  | save {s : Store} {row : DurableRequest} {value : Value}
      (hrow : s.rows.lookup row.requestId = some row) (hresult : row.result = none) :
      FileWrite s { s with rows := s.rows.insert row.requestId (row.withResult value) }
  | ack {s : Store} {row : DurableRequest} (hrow : s.rows.lookup row.requestId = some row)
      (hresult : row.result ≠ none) :
      FileWrite s { s with rows := s.rows.insert row.requestId row.acknowledged }
  | retire {s : Store} {id : RequestId}
      (hsettled : ∀ row, s.rows.lookup id = some row → row.phase = .acked) :
      FileWrite s { s with active := s.active.erase (activeFileName id) }

/-- A write to a file, or one more execution of a request without a saved result. -/
inductive Write : Store → Store → Prop
  | file {s t : Store} (h : FileWrite s t) : Write s t
  | execute {s : Store} {row record : DurableRequest} {answer : Except ControllerError Value}
      (hrow : s.rows.lookup record.requestId = some row) (hresult : row.result = none) :
      Write s { s with executed := s.executed ++ [⟨record, answer⟩] }

variable {codec : Codec} {s t : Store}

theorem FileWrite.executed (h : FileWrite s t) : t.executed = s.executed := by
  cases h <;> rfl

/-! ## Reading a row back -/

variable {row record : DurableRequest}

theorem reparse_eq_some : row.reparse codec = some record ↔
      reread codec.number valueDepth row.body = some record.body ∧
      reread codec.number valueDepth row.prepared = some record.prepared ∧
      row.result.mapM (reread codec.number valueDepth) = some record.result ∧
      record = { row with
        body := record.body, prepared := record.prepared, result := record.result } := by
  simp only [DurableRequest.reparse, Option.bind_eq_bind, Option.bind_eq_some_iff, Option.pure_def,
    Option.some.injEq]
  constructor
  · intro h
    obtain ⟨body, hb, prepared, hp, result, hr, rfl⟩ := h
    exact ⟨hb, hp, hr, rfl⟩
  · intro h
    obtain ⟨hb, hp, hr, hs⟩ := h
    exact ⟨_, hb, _, hp, _, hr, hs.symm⟩

theorem reparse_keeps (h : row.reparse codec = some record) :
    record.phase = row.phase ∧ (record.result = none ↔ row.result = none) := by
  obtain ⟨-, -, hr, hs⟩ := reparse_eq_some.mp h
  refine ⟨by rw [hs], ?_⟩
  cases hro : row.result with
  | none =>
    rw [hro] at hr
    simp [← Option.some.inj hr]
  | some value =>
    rw [hro] at hr
    obtain ⟨value', -, hre⟩ := Option.map_eq_some_iff.mp hr
    simp [← hre]

theorem validateRecord_requestId {id record u} (h : validateRecord codec id record = .ok u) :
    record.requestId = id := by
  unfold validateRecord at h
  obtain ⟨-, h⟩ := of_then h
  exact ensure_eq_ok.mp (of_then h).1

theorem readRecord_ok {id} (h : readRecord codec id row = .ok record) :
    row.reparse codec = some record ∧ record.requestId = id := by
  unfold readRecord at h
  obtain ⟨-, h⟩ := of_then h
  split at h
  next parsed hp =>
    obtain ⟨hv, h⟩ := of_then h
    cases h
    exact ⟨hp, validateRecord_requestId hv⟩
  next => cases h

/-- The store has a row for the record that agrees with it on how far it has come. -/
def Held (s : Store) (record : DurableRequest) : Prop :=
  ∃ row, s.rows.lookup record.requestId = some row ∧ row.phase = record.phase ∧
    (row.result = none ↔ record.result = none)

theorem held_of_readRecord {id} (hro : s.rows.lookup id = some row)
    (h : readRecord codec id row = .ok record) :
    Held s record ∧ record.requestId = id := by
  obtain ⟨hp, rfl⟩ := readRecord_ok h
  obtain ⟨hph, hr⟩ := reparse_keeps hp
  exact ⟨⟨row, hro, hph.symm, hr.symm⟩, rfl⟩

theorem Held.acked {record} (h : Held s record) (hp : record.phase = .acked) :
    ∀ row, s.rows.lookup record.requestId = some row → row.phase = .acked := by
  intro row' hr'
  obtain ⟨row, hr, hs, -⟩ := h
  cases hr.symm.trans hr'
  exact hs.trans hp

section
variable {α : Type} {E : ControllerError → Store → Prop} {R : α → Store → Prop}

theorem tracks_files {m} (h : Tracks FileWrite m s E R) : Tracks Write m s E R :=
  h.weaken fun _ _ => .file

theorem loadLocked_tracks (id : RequestId) {R} (hn : s.rows.lookup id = none → R none s)
    (hs : ∀ row record, s.rows.lookup id = some row → readRecord codec id row = .ok record →
      R (some record) s) (hf : ∀ e, E e s) : Tracks FileWrite (loadLocked codec id) s E R := by
  refine tracks_get_bind ?_
  cases hro : s.rows.lookup id with
  | none => exact tracks_pure (hn hro)
  | some row =>
    refine tracks_bind_lift hf fun record hr => ?_
    exact tracks_pure (hs row record hro hr)

theorem readRow_tracks (id : RequestId) {R}
    (hr : ∀ row record, s.rows.lookup id = some row → readRecord codec id row = .ok record →
      R record s) (hf : ∀ e, E e s) : Tracks FileWrite (readRow codec id) s E R := by
  refine tracks_get_bind ?_
  cases hro : s.rows.lookup id with
  | none => exact tracks_fail (hf _)
  | some row => exact tracks_lift (fun record h => hr row record hro h) fun e _ => hf e

theorem retireReceipt_tracks (id : RequestId) {R}
    (hs : ∀ row, s.rows.lookup id = some row → row.phase = .acked)
    (hp : R () { s with active := s.active.erase (activeFileName id) }) (ha : R () s) :
    Tracks FileWrite (retireReceipt id) s E R := by
  refine tracks_get_bind ?_
  by_cases hn : s.active.lookup (activeFileName id) = none
  · rw [if_pos hn]
    exact tracks_pure ha
  · rw [if_neg hn]
    exact tracks_write (.retire hs) hp

theorem exchange_tracks {expected next R} (hs : s.rows.lookup expected.requestId = some expected →
      FileWrite s { s with rows := s.rows.insert next.requestId next })
    (hd : s.rows.lookup expected.requestId = some expected →
      R true { s with rows := s.rows.insert next.requestId next }) (hot : R false s)
    (hf : ∀ e, E e s) :
    Tracks FileWrite (exchange expected next) s E R := by
  refine tracks_bind_lift hf fun _ _ => tracks_get_bind ?_
  cases hr : s.rows.lookup expected.requestId with
  | none => exact tracks_fail (hf _)
  | some row =>
    by_cases heq : row = expected
    · subst heq
      simp only
      exact tracks_bind_write (hs hr) (tracks_pure (hd hr))
    · simp only [if_neg heq]
      exact tracks_pure hot

/-- The conditions of a failure that nothing depends on. -/
def anyFailure : ControllerError → Store → Prop := fun _ _ => True

variable {record : DurableRequest} (request : ControllerRequest) (handler : CommandHandler)

/-- The first part of a drive ends with a record that has a result, or with one to
start again from. -/
theorem saveResult_tracks (fuel : Nat) (hh : Held s record) :
    Tracks Write (saveResult codec handler fuel record) s anyFailure fun adopted t =>
      match adopted with
      | .inl current => Held t current ∧ current.result ≠ none
      | .inr other => Held t other := by
  unfold saveResult
  cases hr : record.result with
  | some value => exact tracks_pure ⟨hh, by simp [hr]⟩
  | none =>
    obtain ⟨row, hro, -, hn⟩ := hh
    refine Tracks.bind (R := fun _ t => t.rows = s.rows) ?_ fun answer t _ ht => ?_
    · exact tracks_bind_write (.execute hro (hn.mpr hr)) (tracks_pure rfl)
    refine tracks_bind_lift (fun _ => trivial) fun value _ => ?_
    refine Tracks.bind (R := fun done w => done = true → Held w (record.withResult value))
      ?_ fun done w _ hw => ?_
    · refine tracks_files <| exchange_tracks (fun hs => @FileWrite.save _ record _ hs hr)
        (fun _ _ => ⟨_, AList.lookup_insert _, rfl, Iff.rfl⟩) nofun fun _ => trivial
    cases done with
    | true => exact tracks_pure ⟨hw rfl, by simp [DurableRequest.withResult]⟩
    | false =>
      refine Tracks.bind (R := fun other x => x = w ∧ Held w other) ?_ fun other x _ hx => ?_
      · refine tracks_files <| readRow_tracks _ (fun row other hro hre => ⟨rfl, ?_⟩) fun _ =>
          trivial
        exact (held_of_readRecord hro hre).1
      obtain ⟨rfl, hot⟩ := hx
      by_cases ha : other.result = none ∨ other.phase = .acked
      · simp only [if_pos ha]
        exact tracks_pure hot
      · simp only [if_neg ha]
        exact tracks_pure ⟨hot, fun h => ha (.inl h)⟩

theorem answerSettled_tracks
    (hs : ∀ row, s.rows.lookup record.requestId = some row → row.phase = .acked) :
    Tracks FileWrite (answerSettled record) s anyFailure fun _ _ => True := by
  refine Tracks.bind (R := fun _ _ => True) ?_ fun _ _ _ _ =>
    tracks_lift (fun _ _ => trivial) fun _ _ => trivial
  exact retireReceipt_tracks _ hs trivial trivial

theorem acknowledge_tracks {current} (hs : current.result ≠ none) :
    Tracks FileWrite (exchange current current.acknowledged) s anyFailure fun done t =>
      done = true → ∀ row, t.rows.lookup current.requestId = some row → row.phase = .acked := by
  refine exchange_tracks (fun hst => @FileWrite.ack _ current hst hs)
    (fun _ _ row hr => ?_) nofun fun _ => trivial
  obtain rfl := Option.some.inj ((AList.lookup_insert _).symm.trans hr)
  rfl

theorem driveToAck_tracks (fuel : Nat) (hh : Held s record) :
    Tracks Write (driveToAck codec handler fuel record) s anyFailure fun _ _ => True := by
  induction fuel generalizing s record with
  | zero => exact tracks_fail trivial
  | succ fuel ih =>
    unfold driveToAck
    by_cases hp : record.phase = .acked
    · rw [if_pos hp]
      exact tracks_files (answerSettled_tracks (hh.acked hp))
    · rw [if_neg hp]
      refine (saveResult_tracks handler fuel hh).bind fun adopted t _ ht => ?_
      cases adopted with
      | inr other => exact ih ht
      | inl current =>
        refine (tracks_files (acknowledge_tracks ht.2)).bind fun done u _ hu => ?_
        cases done with
        | true => exact tracks_files (answerSettled_tracks (hu rfl))
        | false =>
          refine Tracks.bind (R := fun other v => v = u ∧ Held u other) ?_ fun other v _ hv => ?_
          · refine tracks_files <| readRow_tracks _ (fun row other hro hr => ⟨rfl, ?_⟩) fun _ =>
              trivial
            exact (held_of_readRecord hro hr).1
          obtain ⟨rfl, hot⟩ := hv
          exact ih hot

theorem checkReplayByParts_eq_ok {id id' digest digest' command command' u} :
    checkReplayByParts id digest command id' digest' command' = .ok u ↔
      id = id' ∧ digest = digest' ∧ command = command' := by
  simp [checkReplayByParts, ensure_eq_ok]

theorem readPending_tracks (name : String) {R}
    (hr : ∀ receipt, s.active.lookup name = some receipt →
      activeFileName receipt.requestId = name → R receipt s) (hf : ∀ e, E e s) :
    Tracks FileWrite (readPending name) s E R := by
  refine tracks_get_bind ?_
  cases hre : s.active.lookup name with
  | none => exact tracks_fail (hf _)
  | some receipt =>
    refine tracks_bind_lift hf fun _ _ => tracks_bind_require (hf _) fun hn => ?_
    exact tracks_pure (hr receipt hre hn)

theorem writePendingReceipt_tracks (receipt : PendingReceipt) :
    Tracks FileWrite (writePendingReceipt receipt) s (fun _ t => t = s) fun _ t =>
      t = { s with active := s.active.insert (activeFileName receipt.requestId) receipt } := by
  unfold writePendingReceipt
  refine tracks_bind_lift (fun _ => rfl) fun _ _ => tracks_get_bind ?_
  exact tracks_bind_require rfl fun hn => tracks_write (.receipt hn) rfl

def Indexed (codec : Codec) (request : ControllerRequest) (s : Store) : Prop :=
  ∃ receipt, s.active.lookup (activeFileName request.requestId) = some receipt ∧
    receipt.requestId = request.requestId ∧
    receipt.payloadSha256 = request.payloadSha256 codec.sha256 ∧
    receipt.command = request.command

theorem ensurePendingReceipt_tracks (now : Nat) :
    Tracks FileWrite (ensurePendingReceipt codec request now) s anyFailure fun _ t =>
      t.rows = s.rows ∧ Indexed codec request t := by
  unfold ensurePendingReceipt
  refine Tracks.bind (R := Ends (fun _ t => t = s) fun _ t =>
    t.rows = s.rows ∧ Indexed codec request t) ?_ fun answer t _ ht => ?_
  · refine (writePendingReceipt_tracks _).attempt (fun _ _ _ h => h) fun _ t _ ht => ?_
    subst ht
    exact ⟨rfl, _, AList.lookup_insert _, rfl, rfl, rfl⟩
  cases answer with
  | ok _ => exact tracks_pure ht
  | error error =>
    have hs : t = s := ht
    subst hs
    have hre : Tracks FileWrite (readPending (activeFileName request.requestId)) t anyFailure
        fun receipt u => u = t ∧
          t.active.lookup (activeFileName request.requestId) = some receipt :=
      readPending_tracks _ (fun receipt hr _ => ⟨rfl, hr⟩) fun _ => trivial
    refine hre.attempt_ok.bind fun answer u _ hu => ?_
    cases answer with
    | error _ => exact tracks_fail trivial
    | ok existing =>
      obtain ⟨rfl, hr⟩ := hu existing rfl
      refine tracks_lift (fun _ hsa => ?_) fun _ _ => trivial
      obtain ⟨hid, hd, hc⟩ := checkReplayByParts_eq_ok.mp hsa
      exact ⟨rfl, existing, hr, hid, hd, hc⟩

theorem publishWith_tracks (opMeta : OperationMeta) (hn : s.rows.lookup request.requestId = none)
    (hin : Indexed codec request s) :
    Tracks FileWrite (publishWith codec request opMeta) s anyFailure fun record t =>
      t.rows.lookup record.requestId = some record ∧ record.requestId = request.requestId := by
  unfold publishWith
  refine tracks_bind_lift (fun _ => trivial) fun _ _ => tracks_get_bind ?_
  rw [hn]
  obtain ⟨receipt, hr, hid, hd, hc⟩ := hin
  refine tracks_bind_write (@FileWrite.publish _ (publishedRecord codec request opMeta) receipt hn
    rfl hr ⟨hid, hd, hc⟩) (tracks_pure ⟨?_, rfl⟩)
  exact AList.lookup_insert _

theorem held_of_stored {row} (hro : s.rows.lookup record.requestId = some row)
    (hre : row.reparse codec = some record ∨ record = row) : Held s record := by
  rcases hre with hp | rfl
  · obtain ⟨hph, hr⟩ := reparse_keeps hp
    exact ⟨row, hro, hph.symm, hr.symm⟩
  · exact ⟨_, hro, rfl, Iff.rfl⟩

/-! ## Programs that work on files and drive rows that they have read -/

structure Closed (codec : Codec) (handler : CommandHandler) (E : ControllerError → Store → Prop)
    (P : {α : Type} → StoreM α → Store → Prop) : Prop where
  pure {α : Type} (a : α) (s : Store) : P (pure a) s
  fail {α : Type} {e s} (h : E e s) : P (Prog.fail e : StoreM α) s
  files {α β : Type} {m : StoreM α} {f : α → StoreM β} {s R} (h : Tracks FileWrite m s E R)
    (hf : ∀ a t, R a t → P (f a) t) : P (m >>= f) s
  drive {α : Type} {row record f s} (hro : s.rows.lookup record.requestId = some row)
    (hre : row.reparse codec = some record ∨ record = row)
    (hf : ∀ answer t, P (f answer : StoreM α) t) :
    P ((driveToAck codec handler driveFuel record).attempt >>= f) s

theorem tracks_closed : Closed codec handler E fun m s => Tracks Write m s E fun _ _ => True where
  pure _ _ := tracks_pure trivial
  fail h := tracks_fail h
  files h hf := (tracks_files h).bind fun a t _ ht => hf a t ht
  drive hro hre hf := (driveToAck_tracks handler driveFuel
    (held_of_stored hro hre)).attempt_any.bind
    fun answer t _ _ => hf answer t

theorem loadLocked_reads (id : RequestId) :
    Tracks FileWrite (loadLocked codec id) s anyFailure fun existing t => t = s ∧
      match existing with
      | some record => ∃ row, s.rows.lookup record.requestId = some row ∧
          row.reparse codec = some record
      | none => s.rows.lookup id = none := by
  refine loadLocked_tracks id (fun hn => ⟨rfl, hn⟩) (fun row record hro hr => ⟨rfl, ?_⟩)
    fun _ => trivial
  obtain ⟨hp, rfl⟩ := readRecord_ok hr
  exact ⟨row, hro, hp⟩

section
variable {P : {α : Type} → StoreM α → Store → Prop} {handler}

theorem reportFailure_rule (h : Closed codec handler anyFailure P) (id : RequestId) {row}
    (hro : s.rows.lookup record.requestId = some row)
    (hre : row.reparse codec = some record ∨ record = row) :
    P (reportFailure codec id (driveToAck codec handler driveFuel record)) s := by
  refine h.drive hro hre fun answer t => ?_
  cases answer with
  | ok ack => exact h.pure ack t
  | error error =>
    refine h.files (loadLocked_reads id).attempt_ok fun row u _ => ?_
    rcases row with e | (_ | row)
    · exact h.fail trivial
    · exact h.fail trivial
    · dsimp only
      split <;> exact h.fail trivial

theorem handleWith_rule (h : Closed codec handler anyFailure P) (now : Nat) :
    P (handleWith codec request handler now) s := by
  unfold handleWith
  refine h.files (loadLocked_reads _) fun existing t ht => ?_
  obtain ⟨rfl, hex⟩ := ht
  cases existing with
  | some existing =>
    have hr : Tracks FileWrite (liftM (checkReplay codec existing request) : StoreM Unit) t
        anyFailure fun _ u => u = t :=
      tracks_lift (fun _ _ => rfl) fun _ _ => trivial
    refine h.files hr fun _ u hu => ?_
    subst hu
    obtain ⟨row, hro, hp⟩ := hex
    exact reportFailure_rule h _ hro (.inl hp)
  | none =>
    refine h.files (ensurePendingReceipt_tracks request now) fun _ u hu => ?_
    obtain ⟨hro, hin⟩ := hu
    have hne : u.rows.lookup request.requestId = none := by rw [hro]; exact hex
    cases handler.prepare request with
    | error error =>
      have hre : Tracks FileWrite (retireReceipt request.requestId) u anyFailure fun _ _ => True :=
        retireReceipt_tracks _ (fun row hrw => by simp [hne] at hrw) trivial trivial
      exact h.files hre.attempt_ok fun _ _ _ => h.fail trivial
    | ok opMeta =>
      refine h.files (publishWith_tracks request opMeta hne hin) fun record v hv => ?_
      exact reportFailure_rule h _ hv.1 (.inr rfl)

/-- An attempt reads and writes files, and drives a row that it has read. -/
theorem attemptEntry_rule (h : Closed codec handler E P) (config : ActiveResumeConfig) (now : Nat)
    (busy : RequestId → Bool) (name : String) :
    P (attemptEntry codec handler config now busy name) s := by
  unfold attemptEntry
  cases activeRequestId name with
  | error error => exact h.pure _ _
  | ok id =>
    show P (if busy id = true then pure Outcome.busySkipped else _) s
    by_cases hb : busy id = true
    · rw [if_pos hb]
      exact h.pure _ _
    rw [if_neg hb]
    have hpe : Tracks FileWrite (readPending name) s anyFailure fun _ _ => True :=
      readPending_tracks name (fun _ _ _ => trivial) fun _ => trivial
    refine h.files hpe.attempt_ok fun receipt t _ => ?_
    cases receipt with
    | error error => exact h.pure _ _
    | ok receipt =>
      refine h.files (loadLocked_reads id).attempt_ok fun answer u hu => ?_
      rcases answer with error | (_ | record)
      · exact h.pure _ _
      · obtain ⟨rfl, hn⟩ := hu none rfl
        show P (if _ < _ then pure Outcome.orphan else _) u
        split
        · exact h.pure _ _
        have hre : Tracks FileWrite (retireReceipt id) u anyFailure fun _ _ => True :=
          retireReceipt_tracks _ (fun row hro => by simp [hn] at hro) trivial trivial
        refine h.files hre.attempt_ok fun answer _ _ => ?_
        cases answer <;> exact h.pure _ _
      · obtain ⟨rfl, row, hro, hp⟩ := hu _ rfl
        dsimp only
        cases checkRowAgainstReceipt record receipt with
        | error error => exact h.pure _ _
        | ok _ =>
          refine h.drive hro (.inl hp) fun answer _ => ?_
          cases answer <;> exact h.pure _ _

end

inductive TickWrite (s t : Store) : Prop
  | row (h : Write s t)
  | cursor {key : String} (h : t = { s with cursor := some (some key) })

/-- Each outcome is what the attempt of its entry answers, in a store that the tick comes
to. -/
def Attempted (codec : Codec) (handler : CommandHandler) (config : ActiveResumeConfig) (now : Nat)
    (busy : RequestId → Bool) (s : Store) (attempted : List (String × Outcome)) : Prop :=
  ∀ name outcome, (name, outcome) ∈ attempted → ∃ u, ReflTransGen TickWrite s u ∧
    (attemptEntry codec handler config now busy name).answer u = .ok outcome

theorem attemptAll_tracks (config : ActiveResumeConfig) (now : Nat) (busy : RequestId → Bool)
    (names : List String) :
    Tracks TickWrite (attemptAll codec handler config now busy names) s E fun attempted _ =>
      attempted.map Prod.fst = names ∧ Attempted codec handler config now busy s attempted := by
  induction names generalizing s with
  | nil => exact tracks_pure ⟨rfl, fun _ _ h => absurd h List.not_mem_nil⟩
  | cons name names ih =>
    refine ((attemptEntry_rule (tracks_closed handler) config now busy name).weaken
      fun _ _ h => .row h).with_answer.bind fun outcome t ht ha => ?_
    refine ih.bind fun rest u _ hr => tracks_pure ⟨by rw [List.map_cons, hr.1], ?_⟩
    intro name' outcome' hm
    rcases List.mem_cons.mp hm with heq | hm
    · cases heq
      exact ⟨s, .refl, ha.1⟩
    · obtain ⟨v, hv, hat⟩ := hr.2 name' outcome' hm
      exact ⟨v, ht.trans hv, hat⟩

/-- A tick attempts the entries of its window, in their order, and leaves the last of
them in the cursor. -/
theorem resumeActiveBounded_tracks (config : ActiveResumeConfig) (now : Nat)
    (busy : RequestId → Bool) :
    Tracks TickWrite (resumeActiveBounded codec handler config now busy) s (fun _ _ => False)
      fun report t =>
        let window := (rotatePastCursor (readCursor s) (activeNames s)).take
          (max config.maxRequestsPerTick 1)
        (report.attempted.map Prod.fst = window ∧
          Attempted codec handler config now busy s report.attempted) ∧
          ∀ last, window.getLast? = some last → readCursor t = some last := by
  refine tracks_get_bind ?_
  refine (attemptAll_tracks handler config now busy _).bind fun attempted t _ ha => ?_
  cases hl : ((rotatePastCursor (readCursor s) (activeNames s)).take
      (max config.maxRequestsPerTick 1)).getLast? with
  | none =>
    refine tracks_pure ⟨ha, fun last hs => ?_⟩
    cases hl.symm.trans hs
  | some last =>
    have hp : Tracks TickWrite (persistCursor last) t (fun _ _ => False) fun _ u =>
        readCursor u = some last :=
      Tracks.bind (R := fun _ u => readCursor u = some last)
        (tracks_write (.cursor rfl) rfl) fun _ _ _ h => tracks_pure h
    refine hp.bind fun _ u _ hu => tracks_pure ⟨ha, ?_⟩
    intro last' hl'
    rw [hu, ← hl, hl']

end

end MacWorker.Controller
