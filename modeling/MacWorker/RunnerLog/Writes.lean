import MacWorker.Lib.Reach
import MacWorker.RunnerLog.Writer

/-! # The writes of the runner log

Every write of every call, with the situation it is made in. What holds of the log
in all runs is derived from this list alone. -/
namespace MacWorker.RunnerLog
open Durable Fallible Json Relation List

/-- The commits that may follow `commit` after a payload. -/
inductive Extends (turnId : TurnId) (commit : Commit) (bytes : List UInt8) : Commit → Prop
  | plain : Extends turnId commit bytes { commit with len := commit.len + bytes.length }
  | chunk (stream : LogStream) (hoffset : commit.offsets.get stream + bytes.length < u64Limit) :
      Extends turnId commit bytes { commit with
        offsets := commit.offsets.set stream (commit.offsets.get stream + bytes.length)
        len := commit.len + bytes.length }
  | accept {assignment : AcceptedTurnAssignment} (hnew : commit.accepted = false)
      (hvalid : assignment.validateFor turnId = .ok ()) :
      Extends turnId commit bytes { commit with
        len := commit.len + bytes.length, accepted := true, assignment := some assignment }
  | assign {assignment : AcceptedTurnAssignment} (haccepted : commit.accepted = true)
      (hnew : commit.assignment = none) (hvalid : assignment.validateFor turnId = .ok ()) :
      Extends turnId commit bytes { commit with
        len := commit.len + bytes.length, assignment := some assignment }
  | complete {completion : Completion}
      (hvalid : completionIsValid commit.accepted commit.offsets completion = true) :
      Extends turnId commit bytes { commit with
        len := commit.len + bytes.length, completion := some completion }

/-- A writer that is about to replace the checkpoint does not trust what it knows. -/
def Distrusts (s : State) : Prop := ∀ writer, s.writer = some writer → writer.poisoned = true

inductive LogWrite (taskId : TaskId) (turnId : TurnId) : State → State → Prop
  | createLog {s : State} (hlog : s.log = none) (hsidecar : s.sidecar = none) :
      LogWrite taskId turnId s { s with log := some [] }
  | createSidecar {s : State} (hlog : s.log = some []) (hsidecar : s.sidecar = none)
      (hwriter : s.writer = none) :
      LogWrite taskId turnId s { s with sidecar := some (.initial taskId turnId) }
  | attach {s : State} {journal : Journal} (hsidecar : s.sidecar = some journal) :
      LogWrite taskId turnId s { s with writer := some ⟨journal, false⟩ }
  | detach {s : State} : LogWrite taskId turnId s { s with writer := none }
  | poison {s : State} {journal : Journal} :
      LogWrite taskId turnId s { s with writer := some ⟨journal, true⟩ }
  | intent {s : State} {journal : Journal} {bytes log : List UInt8} {next : Commit}
      (hsidecar : s.sidecar = some journal) (hpending : journal.pending = none)
      (hincomplete : journal.committed.completion = none) (hlog : s.log = some log)
      (hcommitted : log.length = journal.committed.len) (hsize : bytes.length ≤ chunkLimit)
      (hlen : journal.committed.len + bytes.length < u64Limit)
      (hnext : Extends journal.turnId journal.committed bytes next)
      (hfits : textLen (journal.withIntent bytes next).toJson ≤ sidecarLimit)
      (hpoisoned : Distrusts s) :
      LogWrite taskId turnId s { s with
        sidecar := some (journal.withIntent bytes next), intents := s.intents ++ [bytes] }
  | byte {s : State} {journal : Journal} {pending : Pending} {bytes log : List UInt8} {b : UInt8}
      (hsidecar : s.sidecar = some journal) (hpending : journal.pending = some pending)
      (hbytes : Base64.decode pending.payload = some bytes) (hlog : s.log = some log)
      (hstart : journal.committed.len ≤ log.length)
      (hbyte : bytes[log.length - journal.committed.len]? = some b) :
      LogWrite taskId turnId s { s with log := some (log ++ [b]) }
  | commit {s : State} {journal : Journal} {pending : Pending} {bytes log : List UInt8}
      (hsidecar : s.sidecar = some journal) (hpending : journal.pending = some pending)
      (hbytes : Base64.decode pending.payload = some bytes) (hlog : s.log = some log)
      (hwritten : log.length = journal.committed.len + bytes.length) (hpoisoned : Distrusts s) :
      LogWrite taskId turnId s { s with sidecar := some (journal.withCommit pending.next) }

/-- A write that makes no intent durable. -/
def Quiet (taskId : TaskId) (turnId : TurnId) (a b : State) : Prop :=
  LogWrite taskId turnId a b ∧ b.intents = a.intents

/-- The writes of one append that starts in `s`: they make one intent durable, with
offsets in `P`. -/
def AppendWrite (taskId : TaskId) (turnId : TurnId) (s : State) (bytes : List UInt8)
    (P : Offsets → Prop) (a b : State) : Prop :=
  LogWrite taskId turnId a b ∧ (b.intents = a.intents ∨
    a.intents = s.intents ∧ b.intents = s.intents ++ [bytes] ∧
    ∃ journal pending, b.sidecar = some journal ∧ journal.pending = some pending ∧
      P pending.next.offsets)

variable {taskId : TaskId} {turnId : TurnId} {s t : State}

def anyFailure : LogError → State → Prop := fun _ _ => True

section
variable {W : State → State → Prop} {α : Type} {R : α → State → Prop}

theorem tracks_self_bind {f}
    (hf : ∀ writer, s.writer = some writer → Tracks W (f writer) s anyFailure R) :
    Tracks W (self >>= f) s anyFailure R := by
  refine Tracks.bind (R := fun writer t => t = s ∧ s.writer = some writer) ?_
    fun writer t _ ht => ?_
  · refine tracks_get_bind ?_
    cases hw : s.writer with
    | none => exact tracks_fail trivial
    | some writer => exact tracks_pure ⟨rfl, rfl⟩
  · obtain ⟨rfl, hw⟩ := ht
    exact hf writer hw

theorem tracks_logLength_bind {f}
    (hf : ∀ log, s.log = some log → Tracks W (f log.length) s anyFailure R) :
    Tracks W (logLength >>= f) s anyFailure R := by
  refine Tracks.bind (R := fun n t => t = s ∧ ∃ log, s.log = some log ∧ n = log.length) ?_
    fun n t _ ht => ?_
  · refine tracks_get_bind ?_
    cases hl : s.log with
    | none => exact tracks_fail trivial
    | some log => exact tracks_pure ⟨rfl, log, rfl, rfl⟩
  · obtain ⟨rfl, log, hl, rfl⟩ := ht
    exact hf log hl

theorem tracks_require_bind {p : Prop} [Decidable p] {e f}
    (hf : p → Tracks W (f ()) s anyFailure R) :
    Tracks W (Prog.require p e >>= f) s anyFailure R := tracks_bind_require trivial hf

theorem tracks_lift_bind {β : Type} {x : Except LogError β} {f : β → LogM α}
    (hf : ∀ b, x = .ok b → Tracks W (f b) s anyFailure R) :
    Tracks W ((liftM x : LogM β) >>= f) s anyFailure R := tracks_bind_lift (fun _ => trivial) hf

theorem tracks_readChunk_bind {offset limit f} (hf : ∀ chunk, Tracks W (f chunk) s anyFailure R) :
    Tracks W (readChunk offset limit >>= f) s anyFailure R := by
  refine Tracks.bind (R := fun _ t => t = s) ?_ fun chunk t _ ht => ?_
  · refine tracks_get_bind ?_
    cases s.log with
    | none => exact tracks_fail trivial
    | some log => exact tracks_require_bind fun _ => tracks_pure rfl
  · subst ht
    exact hf chunk

end

/-! ## The parts of an append -/

def State.published (s : State) (journal : Journal) : State :=
  { s with
    sidecar := some journal
    intents := s.intents ++ journal.intent
    writer := some ⟨journal, false⟩ }

variable {journal : Journal}

theorem publish_tracks {W writer} (hw : s.writer = some writer)
    (hp : W s { s with writer := some ⟨writer.journal, true⟩ })
    (hr : s.sidecar = some writer.journal → textLen journal.toJson ≤ sidecarLimit →
      W { s with writer := some ⟨writer.journal, true⟩ } { s with
      writer := some ⟨writer.journal, true⟩, sidecar := some journal,
      intents := s.intents ++ journal.intent })
    (hs : ∀ u : State, u.sidecar = some journal → W u { u with writer := some ⟨journal, false⟩ }) :
    Tracks W (publish journal) s anyFailure fun _ t => t = s.published journal := by
  refine tracks_require_bind fun hf => tracks_self_bind fun writer' hw' => ?_
  cases hw.symm.trans hw'
  refine tracks_bind_write hp (tracks_get_bind (tracks_require_bind fun hsi => ?_))
  refine tracks_bind_write (hr hsi hf) ?_
  exact tracks_write (hs _ rfl) rfl

theorem Quiet.poison : Quiet taskId turnId s { s with writer := some ⟨journal, true⟩ } :=
  ⟨.poison, rfl⟩

theorem Quiet.attach (h : s.sidecar = some journal) :
    Quiet taskId turnId s { s with writer := some ⟨journal, false⟩ } := ⟨.attach h, rfl⟩

theorem Quiet.commit {pending bytes log} (hs : s.sidecar = some journal)
    (hp : journal.pending = some pending) (hb : Base64.decode pending.payload = some bytes)
    (hl : s.log = some log) (hw : log.length = journal.committed.len + bytes.length)
    (hpo : Distrusts s) :
    Quiet taskId turnId s { s with
      sidecar := some (journal.withCommit pending.next),
      intents := s.intents ++ (journal.withCommit pending.next).intent } := by
  have hn : (journal.withCommit pending.next).intent = [] := rfl
  rw [hn, append_nil]
  exact ⟨.commit hs hp hb hl hw hpo, rfl⟩

theorem intent_withIntent (journal : Journal) (bytes : List UInt8) (next : Commit) :
    (journal.withIntent bytes next).intent = [bytes] := by
  simp [Journal.intent, Journal.withIntent, Base64.decode_encode]

theorem distrusts_poisoned : Distrusts { s with writer := some ⟨journal, true⟩ } := by
  intro writer h
  cases h
  rfl

theorem writeAll_tracks {pending bytes} (hp : journal.pending = some pending)
    (hb : Base64.decode pending.payload = some bytes) (rest : List UInt8) :
    ∀ {s : State} {log : List UInt8}, s.sidecar = some journal → s.log = some log →
      journal.committed.len ≤ log.length →
      rest = bytes.drop (log.length - journal.committed.len) →
      Tracks (Quiet taskId turnId) (writeAll rest) s anyFailure fun _ t =>
        t = { s with log := some (log ++ rest) } := by
  induction rest with
  | nil =>
    intro s log _ hlo _ _
    refine tracks_pure ?_
    rw [append_nil, ← hlo]
  | cons b rest ih =>
    intro s log hs hlo hst hr
    have hby : bytes[log.length - journal.committed.len]? = some b := by
      have hh := congrArg (·[0]?) hr
      simpa using hh.symm
    have hl : (log ++ [b]).length - journal.committed.len =
        log.length - journal.committed.len + 1 := by
      rw [length_append, length_singleton]
      omega
    have hta : rest = bytes.drop ((log ++ [b]).length - journal.committed.len) := by
      rw [hl, ← tail_drop, ← hr, tail_cons]
    have hn : ({ s with log := s.log.map (· ++ [b]) } : State) =
        { s with log := some (log ++ [b]) } := by rw [hlo, Option.map_some]
    refine tracks_bind_write ?_ ?_
    · rw [hn]
      exact ⟨.byte hs hp hb hlo hst hby, rfl⟩
    · rw [hn]
      refine (ih (s := { s with log := some (log ++ [b]) }) hs rfl ?_ hta).imp
        (fun _ _ _ h => h) fun _ t _ ht => ?_
      · rw [length_append]
        omega
      · rw [ht, append_assoc, singleton_append]

theorem recover_tracks {writer} (hw : s.writer = some writer)
    (hs : s.sidecar = some writer.journal) :
    Tracks (Quiet taskId turnId) recover s anyFailure fun _ _ => True := by
  unfold recover
  refine tracks_self_bind fun writer' hw' => ?_
  cases hw.symm.trans hw'
  refine tracks_logLength_bind fun log hl => ?_
  cases hp : writer.journal.pending with
  | none => exact tracks_require (fun _ => trivial) fun _ => trivial
  | some pending =>
    simp only
    cases hb : Base64.decode pending.payload with
    | none => exact tracks_fail trivial
    | some bytes =>
      simp only
      refine tracks_require_bind fun _ => tracks_require_bind fun hbo => ?_
      refine tracks_readChunk_bind fun chunk => tracks_require_bind fun _ => ?_
      refine tracks_bind_write Quiet.poison ?_
      refine (writeAll_tracks (s := { s with writer := some ⟨writer.journal, true⟩ }) hp
        hb _ hs hl hbo.1 rfl).bind fun _ t _ ht => ?_
      subst ht
      refine tracks_logLength_bind fun log' hl' => tracks_require_bind fun hwr => ?_
      refine (publish_tracks rfl Quiet.poison (fun _ _ => ?_) fun _ => Quiet.attach).imp
        (fun _ _ _ h => h) fun _ _ _ _ => trivial
      exact Quiet.commit hs hp hb hl' hwr distrusts_poisoned

theorem Quiet.append {bytes P a b} (h : Quiet taskId turnId a b) :
    AppendWrite taskId turnId s bytes P a b :=
  ⟨h.1, .inl h.2⟩

theorem intents_of_quiet (h : ReflTransGen (Quiet taskId turnId) s t) : t.intents = s.intents :=
  Reach.invariant (p := fun u => u.intents = s.intents) (fun _ _ ha hb => hb.2.trans ha) rfl h

theorem append_tracks {bytes next P writer} (hw : s.writer = some writer)
    (hn : Extends writer.journal.turnId writer.journal.committed bytes
      { next with len := writer.journal.committed.len + bytes.length }) (hP : P next.offsets) :
    Tracks (AppendWrite taskId turnId s bytes P) (append bytes next) s anyFailure
      fun _ t => t.intents = s.intents ++ [bytes] := by
  unfold append
  refine tracks_self_bind fun writer' hw' => tracks_require_bind fun hr => ?_
  cases hw.symm.trans hw'
  obtain ⟨-, hp, hin, hs⟩ := hr
  refine tracks_logLength_bind fun log hl => tracks_require_bind fun hc => ?_
  refine tracks_require_bind fun hle => ?_
  refine (publish_tracks hw Quiet.poison.append (fun hsi hf => ?_)
    fun _ h => (Quiet.attach h).append).bind fun _ t _ ht => ?_
  · rw [intent_withIntent]
    exact ⟨.intent (s := { s with writer := some ⟨writer.journal, true⟩ }) hsi hp
      hin hl hc hs hle hn hf distrusts_poisoned,
      .inr ⟨rfl, rfl, _, _, rfl, rfl, hP⟩⟩
  · have hit : t.intents = s.intents ++ [bytes] := by
      rw [ht, State.published, intent_withIntent]
    have hre : Tracks (Quiet taskId turnId) recover t anyFailure fun _ _ => True := by
      subst ht
      exact recover_tracks rfl rfl
    refine (hre.imp (fun _ _ _ h => h) fun _ u hu _ => ?_).weaken fun _ _ h => h.append
    rw [intents_of_quiet hu, hit]

/-! ## The calls -/

section

theorem tracks_append {α : Type} {m : LogM α} {bytes : List UInt8} {P : Offsets → Prop}
    {R : α → State → Prop} (h : Tracks (AppendWrite taskId turnId s bytes P) m s anyFailure R) :
    Tracks (LogWrite taskId turnId) m s anyFailure R :=
  h.weaken fun _ _ h => h.1

theorem appendPieces_tracks (pieces : List (List UInt8)) :
    Tracks (LogWrite taskId turnId) (appendPieces pieces) s anyFailure fun _ t =>
      t.intents = s.intents ++ pieces := by
  induction pieces generalizing s with
  | nil => exact tracks_pure (append_nil _).symm
  | cons piece pieces ih =>
    refine tracks_self_bind fun writer hw => ?_
    refine (tracks_append (append_tracks (P := fun _ => True) hw .plain trivial)).bind
      fun _ t _ ht => ih.imp (fun _ _ _ h => h) fun _ u _ hu => ?_
    rw [hu, ht, append_assoc, singleton_append]

theorem decodedBytes_eq_ok {chunk : LogChunk} {bytes : List UInt8}
    (h : chunk.decodedBytes = .ok bytes) :
    chunk.offset + bytes.length < u64Limit ∧ chunk.nextOffset = chunk.offset + bytes.length := by
  unfold LogChunk.decodedBytes at h
  split at h
  next => cases h
  next decoded _ =>
    obtain ⟨hov, h⟩ := of_then h
    obtain ⟨hof, h⟩ := of_then h
    cases h
    obtain ⟨hs, hn⟩ := ensure_eq_ok.mp hof
    exact ⟨(ensure_eq_ok.mp hov).resolve_left (by omega), hn⟩

theorem Offsets.get_set (offsets : Offsets) (stream : LogStream) (value : Nat) :
    (offsets.set stream value).get stream = value := by
  cases stream <;> rfl

/-- A chunk that is accepted moves the offset of its stream to its end. -/
theorem appendChunk_tracks {chunk : LogChunk} {bytes : List UInt8}
    (hb : chunk.decodedBytes = .ok bytes) :
    Tracks (AppendWrite taskId turnId s bytes fun offsets =>
        offsets.get chunk.stream = chunk.nextOffset) (appendChunk chunk) s anyFailure
      fun _ t => bytes ≠ [] → t.intents = s.intents ++ [bytes] := by
  obtain ⟨hov, hn⟩ := decodedBytes_eq_ok hb
  unfold appendChunk
  rw [hb]
  refine tracks_lift_bind fun bytes' hb' => ?_
  cases hb'
  refine tracks_self_bind fun writer hw => tracks_require_bind fun hof => ?_
  by_cases hem : bytes = []
  · rw [if_pos hem]
    exact tracks_pure fun h => absurd hem h
  · rw [if_neg hem]
    refine (append_tracks hw ?_ (Offsets.get_set _ _ _)).imp
      (fun _ _ _ h => h) fun _ _ _ h _ => h
    rw [hn, hof]
    exact .chunk chunk.stream (by rw [← hof]; exact hov)

theorem validateFor_new {worker turnId assignment}
    (h : AcceptedTurnAssignment.new worker turnId = .ok assignment) :
    assignment.validateFor turnId = .ok () := by
  obtain ⟨hn, h⟩ := of_then h
  cases h
  exact then_eq_ok.mpr ⟨hn, ensure_of rfl⟩

theorem accepted_tracks (worker : String) (bytes : List UInt8) :
    Tracks (LogWrite taskId turnId) (accepted worker bytes) s anyFailure fun fresh t =>
      fresh = true → t.intents = s.intents ++ [bytes] := by
  refine tracks_self_bind fun writer hw => tracks_lift_bind fun assignment has => ?_
  have hv := validateFor_new (mapError_eq_ok.mp has)
  by_cases ha : writer.journal.committed.accepted = true
  · rw [if_pos ha]
    exact tracks_require_bind fun _ => tracks_pure nofun
  · rw [if_neg ha]
    exact (tracks_append (append_tracks (P := fun _ => True) hw
      (.accept (by simpa using ha) hv) trivial)).bind fun _ _ _ ht => tracks_pure fun _ => ht

theorem acceptedAssignment_tracks (record : WorkerProjection) :
    Tracks (LogWrite taskId turnId) (acceptedAssignment record) s anyFailure fun _ _ => True := by
  refine tracks_self_bind fun writer hw => ?_
  by_cases ha : writer.journal.committed.accepted = false
  · rw [if_pos ha]
    exact tracks_pure trivial
  rw [if_neg ha]
  cases hn : writer.journal.committed.assignment with
  | some assignment => exact tracks_pure trivial
  | none =>
    refine tracks_require_bind fun _ => ?_
    cases record.worker with
    | none => exact tracks_fail trivial
    | some name =>
      refine tracks_lift_bind fun assignment has => ?_
      have hv := validateFor_new (mapError_eq_ok.mp has)
      exact (tracks_append (append_tracks (P := fun _ => True) hw
        (.assign (by simpa using ha) hn hv) trivial)).bind fun _ _ _ _ => tracks_pure trivial

theorem finish_tracks (completion : Completion) (bytes : List UInt8) :
    Tracks (LogWrite taskId turnId) (finish completion bytes) s anyFailure fun fresh t =>
      fresh = true → t.intents = s.intents ++ [bytes] := by
  refine tracks_self_bind fun writer hw => ?_
  simp only
  cases writer.journal.committed.completion with
  | some current => exact tracks_require_bind fun _ => tracks_pure nofun
  | none =>
    refine tracks_require_bind fun hv => ?_
    exact (tracks_append (append_tracks (P := fun _ => True) hw (.complete hv) trivial)).bind
      fun _ _ _ ht => tracks_pure fun _ => ht

theorem ensureLog_tracks :
    Tracks (LogWrite taskId turnId) ensureLog s anyFailure fun _ _ => True := by
  unfold ensureLog
  refine tracks_get_bind ?_
  by_cases hl : s.log = none
  · rw [if_pos hl]
    refine tracks_get_bind (tracks_require_bind fun hs => ?_)
    exact tracks_write (.createLog hl hs) trivial
  · rw [if_neg hl]
    exact tracks_pure trivial

theorem ensureSidecar_tracks (hw : s.writer = none) :
    Tracks (LogWrite taskId turnId) (ensureSidecar taskId turnId) s anyFailure fun _ _ => True := by
  unfold ensureSidecar
  refine tracks_logLength_bind fun log hl => tracks_get_bind ?_
  by_cases hs : s.sidecar = none
  · rw [if_pos hs]
    refine tracks_require_bind fun hem => ?_
    obtain rfl := length_eq_zero_iff.mp hem
    exact tracks_write (.createSidecar hl hs hw) trivial
  · rw [if_neg hs]
    exact tracks_pure trivial

theorem openLog_tracks :
    Tracks (LogWrite taskId turnId) (openLog taskId turnId) s anyFailure fun _ _ => True := by
  unfold openLog
  refine ensureLog_tracks.bind fun _ t _ _ => ?_
  refine tracks_get_bind (tracks_require_bind fun hw => ?_)
  refine (ensureSidecar_tracks hw).bind fun _ u _ _ => tracks_get_bind ?_
  cases hs : u.sidecar with
  | none => exact tracks_fail trivial
  | some journal =>
    simp only
    apply tracks_lift_bind
    intro _ _
    refine tracks_bind_write (.attach hs) ?_
    have hr : Tracks (LogWrite taskId turnId) recover
        { u with writer := some ⟨journal, false⟩ } anyFailure fun _ _ => True :=
      (recover_tracks rfl hs).weaken fun _ _ h => h.1
    refine hr.attempt_any.bind fun answer v _ _ => ?_
    cases answer with
    | ok _ => exact tracks_pure trivial
    | error error => exact tracks_bind_write .detach (tracks_fail trivial)

end

end MacWorker.RunnerLog
