import MacWorker.RunnerLog.Writes

/-! # What the runner log keeps

The log is the concatenation of the payloads whose intent became durable, except
that the last of them may still be partly written. Every step of the writer keeps
that, every journal it publishes passes its own check, and opening the log completes
the last payload. -/
namespace MacWorker.RunnerLog
open Durable Fallible Json Relation List

variable {taskId : TaskId} {turnId : TurnId} {s t : State} {journal : Journal}

/-! ## Published journals are accepted -/

theorem validateAssignment_eq_ok {commit} :
    validateAssignment commit turnId = .ok () ↔ ∀ assignment, commit.assignment = some assignment →
      commit.accepted = true ∧ assignment.validateFor turnId = .ok () := by
  simp only [validateAssignment, checkSome_eq_ok, then_eq_ok, ensure_eq_ok, mapError_eq_ok]

/-- What an accepted intent says about its payload and the commit that is to follow. -/
structure Continues (turnId : TurnId) (committed : Commit) (bytes : List UInt8) (next : Commit) :
    Prop where
  assignment : validateAssignment next turnId = .ok ()
  size : bytes.length ≤ chunkLimit
  incomplete : committed.completion = none
  fits : committed.len + bytes.length < u64Limit
  len : committed.len + bytes.length = next.len
  accepted : committed.accepted = true → next.accepted = true
  assigned : committed.assignment ≠ none → committed.assignment = next.assignment
  stdout : committed.offsets.stdout ≤ next.offsets.stdout
  stderr : committed.offsets.stderr ≤ next.offsets.stderr
  delta : (next.offsets.stdout - committed.offsets.stdout) +
      (next.offsets.stderr - committed.offsets.stderr) < u64Limit
  offsets : (next.offsets.stdout - committed.offsets.stdout) +
      (next.offsets.stderr - committed.offsets.stderr) = 0 ∨
    (next.offsets.stdout - committed.offsets.stdout) +
      (next.offsets.stderr - committed.offsets.stderr) = bytes.length ∧
    (next.offsets.stdout = committed.offsets.stdout ∨
      next.offsets.stderr = committed.offsets.stderr) ∧
    next.accepted = committed.accepted ∧ next.completion = committed.completion
  completion : ∀ completion, next.completion = some completion →
    completionIsValid next.accepted next.offsets completion = true

variable {bytes : List UInt8} {log : List UInt8} {pending : Pending}

theorem checkPending_eq_ok {committed} : checkPending committed turnId pending = .ok () ↔
      ∃ bytes, Base64.decode pending.payload = some bytes ∧
        Continues turnId committed bytes pending.next := by
  unfold checkPending
  rw [then_eq_ok]
  constructor
  · intro h
    obtain ⟨ha, h⟩ := h
    split at h
    next => cases h
    next bytes hb =>
      obtain ⟨hba, h⟩ := of_then h
      obtain ⟨hsi, hin, hf, hl, hac, has⟩ := ensure_eq_ok.mp hba
      split at h
      next => cases h
      next delta hd =>
        obtain ⟨hof, hc⟩ := of_then h
        unfold offsetDelta at hd
        split at hd
        next hg =>
          cases hd
          refine ⟨bytes, hb, ha, hsi, hin, hf, hl, hac, has,
            hg.1, hg.2.1, hg.2.2, ensure_eq_ok.mp hof, fun completion hs => ?_⟩
          exact ensure_eq_ok.mp (checkSome_eq_ok.mp hc completion hs)
        next => cases hd
  · intro h
    obtain ⟨bytes, hb, h⟩ := h
    refine ⟨h.assignment, ?_⟩
    rw [hb]
    simp only
    refine then_eq_ok.mpr ⟨ensure_of ⟨h.size, h.incomplete, h.fits, h.len, h.accepted,
      h.assigned⟩, ?_⟩
    rw [offsetDelta, if_pos ⟨h.stdout, h.stderr, h.delta⟩]
    refine then_eq_ok.mpr ⟨ensure_of h.offsets, checkSome_eq_ok.mpr fun completion hs => ?_⟩
    exact ensure_of (h.completion completion hs)

structure WellFormed (turnId : TurnId) (commit : Commit) : Prop where
  assignment : validateAssignment commit turnId = .ok ()
  sum : commit.offsets.stdout + commit.offsets.stderr < u64Limit
  offsets : commit.offsets.stdout + commit.offsets.stderr ≤ commit.len
  completion : ∀ completion, commit.completion = some completion →
    completionIsValid commit.accepted commit.offsets completion = true

theorem decode_eq_ok : decode taskId turnId journal = .ok () ↔
    textLen journal.toJson ≤ sidecarLimit ∧
    (journal.version = 1 ∧ journal.taskId = taskId ∧ journal.turnId = turnId) ∧
    WellFormed turnId journal.committed ∧
    ∀ pending, journal.pending = some pending →
      checkPending journal.committed turnId pending = .ok () := by
  simp only [decode, then_eq_ok, ensure_eq_ok, checkSome_eq_ok]
  constructor
  · intro h
    obtain ⟨hs, hid, ha, ⟨hsu, hof⟩, hco, hp⟩ := h
    exact ⟨hs, hid, ⟨ha, hsu, hof, hco⟩, hp⟩
  · intro h
    obtain ⟨hs, hid, hc, hp⟩ := h
    exact ⟨hs, hid, hc.assignment, ⟨hc.sum, hc.offsets⟩, hc.completion, hp⟩

theorem continues_of_offsets_eq {commit next} (hof : next.offsets = commit.offsets)
    (hnl : commit.len + bytes.length = next.len) (hs : bytes.length ≤ chunkLimit)
    (hin : commit.completion = none) (hl : commit.len + bytes.length < u64Limit)
    (ha : validateAssignment next turnId = .ok ())
    (hac : commit.accepted = true → next.accepted = true)
    (has : commit.assignment ≠ none → commit.assignment = next.assignment)
    (hc : ∀ completion, next.completion = some completion →
      completionIsValid next.accepted next.offsets completion = true) :
    Continues turnId commit bytes next := by
  have hz : (next.offsets.stdout - commit.offsets.stdout) +
      (next.offsets.stderr - commit.offsets.stderr) = 0 := by
    rw [hof]
    omega
  refine ⟨ha, hs, hin, hl, hnl, hac, has, ?_, ?_, ?_, .inl hz, hc⟩
  · rw [hof]
  · rw [hof]
  · rw [hz]
    decide

theorem Extends.continues {commit next} (h : Extends turnId commit bytes next)
    (hc : WellFormed turnId commit) (hs : bytes.length ≤ chunkLimit)
    (hin : commit.completion = none) (hl : commit.len + bytes.length < u64Limit) :
    Continues turnId commit bytes next := by
  have hn : ∀ completion, commit.completion ≠ some completion := by simp [hin]
  cases h with
  | plain =>
    exact continues_of_offsets_eq rfl rfl hs hin hl hc.assignment id (fun _ => rfl) hc.completion
  | chunk stream hof =>
    cases stream with
    | stdout =>
      refine ⟨hc.assignment, hs, hin, hl, rfl, id, fun _ => rfl,
        Nat.le_add_right _ _, le_rfl, ?_, .inr ⟨?_, .inr rfl, rfl, rfl⟩,
        fun completion hso => absurd hso (hn completion)⟩ <;>
      simp only [Offsets.set, Offsets.get] <;> omega
    | stderr =>
      refine ⟨hc.assignment, hs, hin, hl, rfl, id, fun _ => rfl,
        le_rfl, Nat.le_add_right _ _, ?_, .inr ⟨?_, .inl rfl, rfl, rfl⟩,
        fun completion hso => absurd hso (hn completion)⟩ <;>
      simp only [Offsets.set, Offsets.get] <;> omega
  | @accept assignment hne hv =>
    refine continues_of_offsets_eq rfl rfl hs hin hl ?_ (fun _ => rfl) (fun h => ?_)
      fun completion hso => absurd hso (hn completion)
    · refine validateAssignment_eq_ok.mpr fun other hot => ⟨rfl, ?_⟩
      cases hot
      exact hv
    · -- an assignment is kept for an accepted turn only
      obtain ⟨old, hol⟩ := Option.ne_none_iff_exists'.mp h
      have ha := (validateAssignment_eq_ok.mp hc.assignment old hol).1
      cases hne.symm.trans ha
  | @assign assignment ha hne hv =>
    refine continues_of_offsets_eq rfl rfl hs hin hl ?_ id (fun h => absurd hne h)
      hc.completion
    refine validateAssignment_eq_ok.mpr fun other hot => ⟨ha, ?_⟩
    cases hot
    exact hv
  | @complete completion hv =>
    refine continues_of_offsets_eq rfl rfl hs hin hl hc.assignment id
      (fun _ => rfl) fun other hot => ?_
    cases hot
    exact hv

theorem textLen_withCommit (hp : journal.pending = some pending) :
    textLen (journal.withCommit pending.next).toJson ≤ textLen journal.toJson := by
  have hn : textLen .null = 4 := by rw [textLen, render]; decide
  simp only [Journal.toJson, Journal.withCommit, hp, Option.map_some, Option.map_none,
    Option.getD_some, Option.getD_none, Pending.toJson, textLen_obj_cons, map_cons,
    map_nil, sum_cons, sum_nil, memberLen, hn]
  omega

theorem decode_withCommit (h : decode taskId turnId journal = .ok ())
    (hp : journal.pending = some pending) :
    decode taskId turnId (journal.withCommit pending.next) = .ok () := by
  obtain ⟨hs, hid, hc, hch⟩ := decode_eq_ok.mp h
  obtain ⟨bytes, -, hn⟩ := checkPending_eq_ok.mp (hch pending hp)
  have hg : pending.next.offsets.stdout + pending.next.offsets.stderr ≤ pending.next.len := by
    have hof := hc.offsets
    have hl := hn.len
    have hst := hn.stdout
    have hsd := hn.stderr
    rcases hn.offsets with hz | ⟨hd, -⟩ <;> omega
  refine decode_eq_ok.mpr ⟨(textLen_withCommit hp).trans hs, hid,
    ⟨hn.assignment, ?_, hg, hn.completion⟩, nofun⟩
  have hl := hn.len
  have hf := hn.fits
  show pending.next.offsets.stdout + pending.next.offsets.stderr < u64Limit
  omega

theorem textLen_simple_le (uuid : Uuid) : textLen (.str (simple uuid)) ≤ 194 := by
  have hl : (simple uuid).length = 32 := by
    rw [simple, String.length_ofList, length_map, length_range]
  have hle := textLen_str_le (simple uuid)
  rw [hl] at hle
  exact hle

theorem textLen_initial : textLen (Journal.initial taskId turnId).toJson ≤ sidecarLimit := by
  have ht := textLen_simple_le taskId.uuid
  have htu := textLen_simple_le turnId.uuid
  have hc : textLen Commit.initial.toJson ≤ 100 := by decide +kernel
  have hv : textLen (.num (.ofNat 1)) = 1 := by decide +kernel
  have hn : textLen .null = 4 := by decide +kernel
  have hna : (["version", "task_id", "turn_id", "committed", "pending"].map fun name =>
      charsLen (renderString name)).sum = 47 := by decide +kernel
  simp only [map_cons, map_nil, sum_cons, sum_nil] at hna
  simp only [Journal.toJson, Journal.initial, Option.map_none, Option.getD_none, textLen_obj_cons,
    map_cons, map_nil, sum_cons, sum_nil, memberLen, hv, hn,
    sidecarLimit]
  omega

theorem decode_initial : decode taskId turnId (.initial taskId turnId) = .ok () := by
  have hs : 0 + 0 < u64Limit := by decide
  exact decode_eq_ok.mpr ⟨textLen_initial, ⟨rfl, rfl, rfl⟩, ⟨rfl, hs, le_rfl, nofun⟩, nofun⟩

/-! ## The files in every state -/

/-- The checkpoint of a log: what is committed, and of a pending append some part. -/
structure Held (taskId : TaskId) (turnId : TurnId) (s : State) (journal : Journal) : Prop where
  valid : decode taskId turnId journal = .ok ()
  settled : journal.pending = none → s.log = some s.intents.flatten ∧
    journal.committed.len = s.intents.flatten.length
  appending : ∀ {pending}, journal.pending = some pending → ∃ bytes before k,
    Base64.decode pending.payload = some bytes ∧ s.intents = before ++ [bytes] ∧
    k ≤ bytes.length ∧ s.log = some (before.flatten ++ bytes.take k) ∧
    journal.committed.len = before.flatten.length

structure Files (taskId : TaskId) (turnId : TurnId) (s : State) : Prop where
  fresh : s.sidecar = none → s.intents = [] ∧ (s.log = none ∨ s.log = some [])
  held : ∀ {journal}, s.sidecar = some journal → Held taskId turnId s journal

/-- The files, and a writer that trusts what it knows knows the checkpoint. -/
structure Good (taskId : TaskId) (turnId : TurnId) (s : State) : Prop where
  files : Files taskId turnId s
  writer : ∀ writer, s.writer = some writer → writer.poisoned = false →
    s.sidecar = some writer.journal

theorem Good.empty : Good taskId turnId State.empty :=
  ⟨⟨fun _ => ⟨rfl, .inl rfl⟩, fun h => by cases h⟩, fun _ h => by cases h⟩

theorem Held.continues (h : Held taskId turnId s journal) (hp : journal.pending = some pending) :
    ∃ bytes, Base64.decode pending.payload = some bytes ∧
      Continues turnId journal.committed bytes pending.next :=
  checkPending_eq_ok.mp ((decode_eq_ok.mp h.valid).2.2.2 pending hp)

theorem Distrusts.writer (h : Distrusts s) (hw : t.writer = s.writer) :
    ∀ writer, t.writer = some writer → writer.poisoned = false →
      t.sidecar = some writer.journal := by
  intro writer hs hf
  rw [hw] at hs
  rw [h writer hs] at hf
  cases hf

theorem LogWrite.good (hw : LogWrite taskId turnId s t) (h : Good taskId turnId s) :
    Good taskId turnId t := by
  cases hw with
  | createLog hlo hsi =>
    refine ⟨⟨fun _ => ⟨(h.files.fresh hsi).1, .inr rfl⟩, fun hs => ?_⟩, h.writer⟩
    cases hsi.symm.trans hs
  | createSidecar hlo hsi hwr =>
    have hin := (h.files.fresh hsi).1
    refine ⟨⟨nofun, fun hs => ?_⟩, fun writer hso => ?_⟩
    · cases hs
      refine ⟨decode_initial, fun _ => ?_, nofun⟩
      rw [hin]
      exact ⟨hlo, rfl⟩
    · cases hwr.symm.trans hso
  | @attach journal hsi =>
    refine ⟨⟨h.files.fresh, fun hs => { h.files.held hs with }⟩, fun writer hso _ => ?_⟩
    cases hso
    exact hsi
  | detach =>
    exact ⟨⟨h.files.fresh, fun hs => { h.files.held hs with }⟩, fun _ h => by cases h⟩
  | poison =>
    refine ⟨⟨h.files.fresh, fun hs => { h.files.held hs with }⟩, fun writer hso hfa => ?_⟩
    cases hso
    cases hfa
  | @intent journal bytes log next hsi hp hic _ _ hsz hle hn hfi hpo =>
    have hh := h.files.held hsi
    obtain ⟨hlo, hc⟩ := hh.settled hp
    refine ⟨⟨nofun, fun hs => ?_⟩, hpo.writer rfl⟩
    cases hs
    obtain ⟨-, hid, hco, -⟩ := decode_eq_ok.mp hh.valid
    refine ⟨decode_eq_ok.mpr ⟨hfi, hid, hco, fun pending hpe => ?_⟩, nofun, fun hpe => ?_⟩
    · cases hpe
      rw [hid.2.2] at hn
      exact checkPending_eq_ok.mpr ⟨bytes, Base64.decode_encode bytes, hn.continues hco hsz hic hle⟩
    cases hpe
    refine ⟨bytes, s.intents, 0, Base64.decode_encode bytes, rfl, Nat.zero_le _, ?_, hc⟩
    rw [take_zero, append_nil]
    exact hlo
  | @byte journal pending bytes log b hsi hp hb hlo hst hby =>
    have hh := h.files.held hsi
    obtain ⟨bytes', before, k, hb', hin, hk, hl', hle⟩ := hh.appending hp
    cases hb.symm.trans hb'
    cases hlo.symm.trans hl'
    have hps : (before.flatten ++ bytes.take k).length - journal.committed.len = k := by
      rw [length_append, length_take, hle]
      omega
    rw [hps] at hby
    obtain ⟨hlt, hg⟩ := List.getElem?_eq_some_iff.mp hby
    refine ⟨⟨fun hs => ?_, fun hs => ?_⟩, h.writer⟩
    · cases hsi.symm.trans hs
    · cases hsi.symm.trans hs
      refine ⟨hh.valid, fun hpe => ?_, fun hpe => ?_⟩
      · cases hp.symm.trans hpe
      · cases hp.symm.trans hpe
        refine ⟨bytes, before, k + 1, hb, hin, hlt, ?_, hle⟩
        rw [append_assoc, take_add_one, hby, Option.toList_some]
  | @commit journal pending bytes log hsi hp hb hlo hwt hpo =>
    have hh := h.files.held hsi
    obtain ⟨bytes', before, k, hb', hin, hk, hl', hle⟩ := hh.appending hp
    cases hb.symm.trans hb'
    cases hlo.symm.trans hl'
    have ha : bytes.take k = bytes := by
      refine take_of_length_le ?_
      rw [length_append, length_take, hle] at hwt
      omega
    have hf : s.intents.flatten = before.flatten ++ bytes := by
      rw [hin, flatten_append, flatten_singleton]
    obtain ⟨bytes', hb', hn⟩ := hh.continues hp
    cases hb.symm.trans hb'
    refine ⟨⟨nofun, fun hs => ?_⟩, hpo.writer rfl⟩
    cases hs
    refine ⟨decode_withCommit hh.valid hp, fun _ => ⟨?_, ?_⟩, nofun⟩
    · show s.log = some s.intents.flatten
      rw [hlo, ha, hf]
    · show pending.next.len = s.intents.flatten.length
      rw [hf, length_append, ← hle, ← hn.len]

/-! ## What a later state keeps -/

structure Later (commit commit' : Commit) : Prop where
  offsets : ∀ stream, commit.offsets.get stream ≤ commit'.offsets.get stream
  len : commit.len ≤ commit'.len
  accepted : commit.accepted = true → commit'.accepted = true

theorem Later.refl (commit : Commit) : Later commit commit := ⟨fun _ => le_rfl, le_rfl, id⟩

theorem Later.trans {a b c} (h : Later a b) (h' : Later b c) : Later a c :=
  ⟨fun stream => (h.offsets stream).trans (h'.offsets stream), h.len.trans h'.len,
    fun ha => h'.accepted (h.accepted ha)⟩

theorem Continues.later {commit next} (h : Continues turnId commit bytes next) :
    Later commit next := by
  refine ⟨fun stream => ?_, ?_, h.accepted⟩
  · cases stream with
    | stdout => exact h.stdout
    | stderr => exact h.stderr
  · rw [← h.len]
    exact Nat.le_add_right _ _

section
variable (hw : LogWrite taskId turnId s t)
include hw

/-- What a write does to a checkpoint: it keeps it, adds a pending append, or commits one. -/
theorem LogWrite.checkpoint (hsi : s.sidecar = some journal) : t.sidecar = some journal ∨
    journal.pending = none ∧ (∃ bytes next, t.sidecar = some (journal.withIntent bytes next)) ∨
    ∃ pending, journal.pending = some pending ∧
      t.sidecar = some (journal.withCommit pending.next) := by
  cases hw with
  | createSidecar _ hs => rw [hs] at hsi; cases hsi
  | intent hs hp =>
    cases hs.symm.trans hsi
    exact .inr (.inl ⟨hp, _, _, rfl⟩)
  | commit hs hp =>
    cases hs.symm.trans hsi
    exact .inr (.inr ⟨_, hp, rfl⟩)
  | _ => exact .inl hsi

theorem LogWrite.later (h : Good taskId turnId s) (hsi : s.sidecar = some journal) :
    ∃ journal', t.sidecar = some journal' ∧ Later journal.committed journal'.committed := by
  rcases hw.checkpoint hsi with ht | ⟨-, _, _, ht⟩ | ⟨pending, hp, ht⟩
  · exact ⟨_, ht, .refl _⟩
  · exact ⟨_, ht, .refl _⟩
  · obtain ⟨_, _, hn⟩ := (h.files.held hsi).continues hp
    exact ⟨_, ht, hn.later⟩

theorem LogWrite.completed (h : Good taskId turnId s)
    (hsi : s.sidecar = some journal) (hc : journal.committed.completion ≠ none) :
    t.sidecar = s.sidecar ∧ t.log = s.log ∧ t.intents = s.intents := by
  have hid : ∀ pending, journal.pending ≠ some pending := by
    intro pending hp
    obtain ⟨_, _, hn⟩ := (h.files.held hsi).continues hp
    exact hc hn.incomplete
  cases hw with
  | createLog _ hs => rw [hs] at hsi; cases hsi
  | createSidecar _ hs => rw [hs] at hsi; cases hsi
  | intent hs _ hin =>
    cases hs.symm.trans hsi
    exact absurd hin hc
  | byte hs hp =>
    cases hs.symm.trans hsi
    exact absurd hp (hid _)
  | commit hs hp =>
    cases hs.symm.trans hsi
    exact absurd hp (hid _)
  | _ => exact ⟨rfl, rfl, rfl⟩

theorem LogWrite.intents : s.intents <+: t.intents := by
  cases hw with
  | intent => exact prefix_append _ _
  | _ => exact prefix_refl _

end

/-! ## Runs -/

inductive Op where
  | «open»
  | close
  | appendBytes (bytes : List UInt8)
  | appendChunk (chunk : LogChunk)
  | accepted (worker : String) (bytes : List UInt8)
  | acceptedAssignment (record : WorkerProjection)
  | finish (completion : Completion) (bytes : List UInt8)
  | finishLocal (outcome : TaskOutcome)

def Op.run (taskId : TaskId) (turnId : TurnId) : Op → LogM Unit
  | .open => openLog taskId turnId
  | .close => Prog.write fun s => { s with writer := none }
  | .appendBytes bytes => RunnerLog.appendBytes bytes
  | .appendChunk chunk => RunnerLog.appendChunk chunk
  | .accepted worker bytes => do let _ ← RunnerLog.accepted worker bytes
  | .acceptedAssignment record => do let _ ← RunnerLog.acceptedAssignment record
  | .finish completion bytes => do let _ ← RunnerLog.finish completion bytes
  | .finishLocal outcome => RunnerLog.finishLocal taskId turnId outcome

/-- A call, or the part of it before an I/O failure or a crash; a crash also loses the
writer. -/
inductive Step (taskId : TaskId) (turnId : TurnId) (s t : State) : Prop
  | call (op : Op) (h : t ∈ (op.run taskId turnId).exposed s)
  | crash (op : Op) {u : State} (h : u ∈ (op.run taskId turnId).exposed s)
      (ht : t = { u with writer := none })

def Run (taskId : TaskId) (turnId : TurnId) : State → State → Prop :=
  ReflTransGen (Step taskId turnId)

theorem tracks_any {α : Type} {m : LogM α} {R : α → State → Prop}
    (h : Tracks (LogWrite taskId turnId) m s anyFailure R) :
    Tracks (LogWrite taskId turnId) m s anyFailure fun _ _ => True :=
  h.imp (fun _ _ _ h => h) fun _ _ _ _ => trivial

theorem Op.tracks (op : Op) :
    Tracks (LogWrite taskId turnId) (op.run taskId turnId) s anyFailure fun _ _ => True := by
  cases op with
  | «open» => exact openLog_tracks
  | close => exact tracks_write .detach trivial
  | appendBytes bytes => exact tracks_any (appendPieces_tracks _)
  | appendChunk chunk =>
    cases hb : chunk.decodedBytes with
    | ok bytes => exact tracks_any (tracks_append (appendChunk_tracks hb))
    | error error =>
      show Tracks _ (RunnerLog.appendChunk chunk) s _ _
      unfold RunnerLog.appendChunk
      rw [hb]
      exact tracks_lift_bind fun _ h => by cases h
  | accepted worker bytes =>
    exact (accepted_tracks worker bytes).bind fun _ _ _ _ => tracks_pure trivial
  | acceptedAssignment record =>
    exact (acceptedAssignment_tracks record).bind fun _ _ _ _ => tracks_pure trivial
  | finish completion bytes =>
    exact (finish_tracks completion bytes).bind fun _ _ _ _ => tracks_pure trivial
  | finishLocal outcome =>
    exact (finish_tracks _ _).bind fun _ _ _ _ => tracks_pure trivial

theorem Run.writes (h : Run taskId turnId s t) : ReflTransGen (LogWrite taskId turnId) s t := by
  induction h with
  | refl => exact .refl
  | tail _ hs ih =>
    cases hs with
    | call op h => exact ih.trans (op.tracks.exposed _ h)
    | crash op h ht =>
      subst ht
      exact (ih.trans (op.tracks.exposed _ h)).tail .detach

/-- What every write keeps of a good state, a run keeps. -/
theorem Run.keeps {P : State → Prop} (hr : Run taskId turnId s t) (h : Good taskId turnId s)
    (hs : P s) (hk : ∀ a b, Good taskId turnId a → P a → LogWrite taskId turnId a b → P b) :
    Good taskId turnId t ∧ P t :=
  Reach.invariant (p := fun u => Good taskId turnId u ∧ P u)
    (fun a b ha hw => ⟨hw.good ha.1, hk a b ha.1 ha.2 hw⟩) ⟨h, hs⟩ hr.writes

theorem Run.good (h : Run taskId turnId State.empty s) : Good taskId turnId s :=
  (h.keeps .empty trivial fun _ _ _ _ _ => trivial).1

/-! ## Opening the log again -/

theorem returns_self {writer} (h : s.writer = some writer) : Returns self s writer s := by
  refine returns_get.bind ?_
  rw [h]
  exact returns_pure writer

theorem returns_logLength (h : s.log = some log) : Returns logLength s log.length s := by
  refine returns_get.bind ?_
  rw [h]
  exact returns_pure log.length

theorem returns_publish {writer} (hw : s.writer = some writer)
    (hs : s.sidecar = some writer.journal) (hf : textLen journal.toJson ≤ sidecarLimit) :
    Returns (publish journal) s () (s.published journal) := by
  refine (returns_require hf).bind ((returns_self hw).bind ?_)
  refine (returns_write _).bind (returns_get.bind ((returns_require hs).bind ?_))
  exact (returns_write _).bind (returns_write _)

theorem returns_writeAll (bytes : List UInt8) (hl : s.log = some log) :
    Returns (writeAll bytes) s () { s with log := some (log ++ bytes) } := by
  induction bytes generalizing s log with
  | nil =>
    rw [append_nil, ← hl]
    exact returns_pure ()
  | cons byte bytes ih =>
    have hn : s.log.map (· ++ [byte]) = some (log ++ [byte]) := by rw [hl, Option.map_some]
    refine (returns_write _).bind ?_
    rw [hn]
    have hr := ih (s := { s with log := some (log ++ [byte]) }) rfl
    rwa [append_assoc, singleton_append] at hr

theorem returns_recover_settled (hw : s.writer = some ⟨journal, false⟩)
    (hp : journal.pending = none) (hl : s.log = some log)
    (hle : log.length = journal.committed.len) : Returns recover s () s := by
  refine (returns_self hw).bind ((returns_logLength hl).bind ?_)
  simp only [hp]
  exact returns_require hle

/-- Recovery writes the rest of the payload, whatever part of it is there, and commits. -/
theorem returns_recover_appending (hwr : s.writer = some ⟨journal, false⟩)
    (hs : s.sidecar = some journal) (hv : decode taskId turnId journal = .ok ())
    (hp : journal.pending = some pending) {bytes log k}
    (hb : Base64.decode pending.payload = some bytes) (hk : k ≤ bytes.length)
    (hlo : s.log = some (log ++ bytes.take k)) (hle : journal.committed.len = log.length) :
    Returns recover s () { s with
      log := some (log ++ bytes)
      sidecar := some (journal.withCommit pending.next)
      writer := some ⟨journal.withCommit pending.next, false⟩ } := by
  obtain ⟨hsi, -, -, hc⟩ := decode_eq_ok.mp hv
  obtain ⟨bytes', hb', hn⟩ := checkPending_eq_ok.mp (hc pending hp)
  cases hb.symm.trans hb'
  have hl : (log ++ bytes.take k).length = journal.committed.len + k := by
    rw [length_append, length_take, hle]
    omega
  have hw : (log ++ bytes.take k).length - journal.committed.len = k := by omega
  have hch : ((log ++ bytes.take k).drop journal.committed.len).take (min k maxLogChunkBytes) =
      bytes.take k := by
    have hli : maxLogChunkBytes = chunkLimit := rfl
    have hm : min k maxLogChunkBytes = k := Nat.min_eq_left (by have := hn.size; omega)
    rw [hle, List.drop_left, hm, take_take, Nat.min_self]
  have hr : Returns (readChunk journal.committed.len k) s (bytes.take k) s := by
    refine returns_get.bind ?_
    simp only [hlo]
    refine (returns_require (by omega)).bind ?_
    rw [hch]
    exact returns_pure _
  refine (returns_self hwr).bind ((returns_logLength hlo).bind ?_)
  simp only [hp, hb, hw]
  refine (returns_require hn.fits).bind ((returns_require ⟨by omega, by omega⟩).bind ?_)
  refine hr.bind ((returns_require (by rw [hw])).bind ((returns_write _).bind ?_))
  refine (returns_writeAll (s := { s with writer := some ⟨journal, true⟩ }) _ hlo).bind ?_
  have ha : log ++ bytes.take k ++ bytes.drop k = log ++ bytes := by
    rw [append_assoc, take_append_drop]
  rw [ha]
  refine (returns_logLength rfl).bind ((returns_require ?_).bind ?_)
  · rw [length_append, hle]
  · have hno : (journal.withCommit pending.next).intent = [] := rfl
    have hpu := returns_publish
      (s := { s with log := some (log ++ bytes), writer := some ⟨journal, true⟩ }) rfl hs
      ((textLen_withCommit hp).trans hsi)
    rw [State.published, hno, append_nil] at hpu
    exact hpu

theorem returns_ensureLog :
    (s.log = none → s.sidecar = none → Returns ensureLog s () { s with log := some [] }) ∧
    (s.log ≠ none → Returns ensureLog s () s) := by
  refine ⟨fun hl hs => returns_get.bind ?_, fun hl => returns_get.bind ?_⟩
  · rw [if_pos hl]
    exact returns_get.bind ((returns_require hs).bind (returns_write _))
  · rw [if_neg hl]
    exact returns_pure ()

theorem returns_ensureSidecar (hl : s.log = some log) :
    (log = [] → s.sidecar = none → Returns (ensureSidecar taskId turnId) s ()
      { s with sidecar := some (.initial taskId turnId) }) ∧
    (s.sidecar ≠ none → Returns (ensureSidecar taskId turnId) s () s) := by
  refine ⟨fun hem hs => ?_, fun hs => ?_⟩
  · refine (returns_logLength hl).bind (returns_get.bind ?_)
    rw [if_pos hs]
    exact (returns_require (by rw [hem]; rfl)).bind (returns_write _)
  · refine (returns_logLength hl).bind (returns_get.bind ?_)
    rw [if_neg hs]
    exact returns_pure ()

theorem openLog_returns_of_files {u} (hen : Returns ensureLog s () t) (hw : t.writer = none)
    (hs : Returns (ensureSidecar taskId turnId) t () u) (hj : u.sidecar = some journal)
    (hv : decode taskId turnId journal = .ok ()) {v}
    (hr : Returns recover { u with writer := some ⟨journal, false⟩ } () v) :
    Returns (openLog taskId turnId) s () v := by
  refine hen.bind (returns_get.bind ((returns_require hw).bind (hs.bind ?_)))
  refine returns_get.bind ?_
  simp only [hj]
  refine (returns_lift hv).bind ((returns_write _).bind (hr.attempt.bind ?_))
  exact returns_pure ()

theorem openLog_returns (h : Good taskId turnId s) (hw : s.writer = none) :
    ∃ t, Returns (openLog taskId turnId) s () t ∧ t.intents = s.intents ∧
      ∃ journal, t.sidecar = some journal ∧ journal.pending = none := by
  cases hs : s.sidecar with
  | none =>
    obtain ⟨-, hl | hl⟩ := h.files.fresh hs
    · exact ⟨_, openLog_returns_of_files (returns_ensureLog.1 hl hs) hw
        ((returns_ensureSidecar rfl).1 rfl hs) rfl decode_initial
        (returns_recover_settled rfl rfl rfl rfl), rfl, _, rfl, rfl⟩
    · exact ⟨_, openLog_returns_of_files (returns_ensureLog.2 (by simp [hl])) hw
        ((returns_ensureSidecar hl).1 rfl hs) rfl decode_initial
        (returns_recover_settled rfl rfl hl rfl), rfl, _, rfl, rfl⟩
  | some journal =>
    have hh := h.files.held hs
    cases hp : journal.pending with
    | none =>
      obtain ⟨hl, hle⟩ := hh.settled hp
      exact ⟨_, openLog_returns_of_files (returns_ensureLog.2 (by simp [hl])) hw
        ((returns_ensureSidecar hl).2 (by simp [hs])) hs hh.valid
        (returns_recover_settled rfl hp hl hle.symm), rfl, _, hs, hp⟩
    | some pending =>
      obtain ⟨bytes, before, k, hb, hin, hk, hl, hle⟩ := hh.appending hp
      have hr := returns_recover_appending (s := { s with writer := some ⟨journal, false⟩ })
        rfl hs hh.valid hp hb hk hl hle
      exact ⟨_, openLog_returns_of_files (returns_ensureLog.2 (by simp [hl])) hw
        ((returns_ensureSidecar hl).2 (by simp [hs])) hs hh.valid hr, rfl, _, rfl, rfl⟩

/-! ## Readers -/

theorem readFrom_eq {len} (hln : len ≤ log.length) (fuel : Nat) :
    ∀ offset, offset ≤ len → len < offset + fuel →
      readFrom log len fuel offset = .ok ((log.take len).drop offset) := by
  induction fuel with
  | zero =>
    intro offset hle hlt
    omega
  | succ fuel ih =>
    intro offset hle hlt
    rw [readFrom]
    by_cases hm : offset < len
    · rw [if_pos hm]
      have hl : 0 < min (len - offset) chunkLimit := by
        have hc : 0 < chunkLimit := by decide
        omega
      have hc : ((log.drop offset).take (min (len - offset) chunkLimit)).length =
          min (len - offset) chunkLimit := by
        rw [length_take, length_drop]
        omega
      refine then_eq_ok.mpr ⟨ensure_of (by omega), then_eq_ok.mpr ⟨ensure_of hc, ?_⟩⟩
      rw [ih (offset + min (len - offset) chunkLimit) (by omega) (by omega)]
      have ht : (log.drop offset).take (min (len - offset) chunkLimit) =
          ((log.take len).drop offset).take (min (len - offset) chunkLimit) := by
        rw [drop_take, take_take]
        congr 1
        omega
      show Except.ok (_ ++ _) = _
      rw [ht, ← drop_drop, take_append_drop]
    · rw [if_neg hm]
      have hen : offset = len := by omega
      rw [hen, drop_eq_nil_of_le (length_take_le _ _)]
      rfl

theorem readCommitted_eq {snap log rest} (hlo : s.log = some (log ++ rest))
    (hl : snap.len = log.length) : readCommitted snap s = .ok log := by
  rw [readCommitted, hlo]
  simp only
  rw [readFrom_eq (by rw [hl, length_append]; omega) _ 0 (Nat.zero_le _) (by omega),
    drop_zero, hl, take_left]

theorem readCommitted_all {snap} (hl : s.log = some log) (hle : snap.len = log.length) :
    readCommitted snap s = .ok log := by
  rw [← append_nil log] at hl
  exact readCommitted_eq hl hle

theorem snapshot_eq {snap} (h : snapshot taskId turnId s = .ok (some snap)) :
    ∃ journal, s.sidecar = some journal ∧ snap.len = journal.committed.len := by
  unfold snapshot at h
  split at h
  next => cases h
  next journal hs =>
    obtain ⟨-, h⟩ := of_then h
    obtain rfl := Option.some.inj (pure_eq_ok.mp h)
    exact ⟨journal, hs, rfl⟩

theorem Files.readCommitted {snap} (h : Files taskId turnId s)
    (hsn : snapshot taskId turnId s = .ok (some snap)) :
    ∃ done rest, s.intents = done ++ rest ∧ rest.length ≤ 1 ∧
      RunnerLog.readCommitted snap s = .ok done.flatten := by
  obtain ⟨journal, hs, hle⟩ := snapshot_eq hsn
  cases hp : journal.pending with
  | none =>
    obtain ⟨hl, hc⟩ := (h.held hs).settled hp
    refine ⟨s.intents, [], (append_nil _).symm, Nat.zero_le _, ?_⟩
    exact readCommitted_all hl (hle.trans hc)
  | some pending =>
    obtain ⟨bytes, before, k, -, hin, -, hl, hc⟩ := (h.held hs).appending hp
    exact ⟨before, [bytes], hin, le_rfl, readCommitted_eq hl (hle.trans hc)⟩

/-! ## A chunk is appended once -/

/-- The end of a chunk of the stream is committed, or pending. -/
def Covered (stream : LogStream) (offset : Nat) (s : State) : Prop :=
  ∃ journal, s.sidecar = some journal ∧ (offset ≤ journal.committed.offsets.get stream ∨
    ∃ pending, journal.pending = some pending ∧ offset ≤ pending.next.offsets.get stream)

section
variable (h : Good taskId turnId s)
include h

theorem LogWrite.covered {stream offset} (hw : LogWrite taskId turnId s t)
    (hc : Covered stream offset s) : Covered stream offset t := by
  obtain ⟨journal, hsi, hof⟩ := hc
  obtain ⟨journal', hs', hl⟩ := hw.later h hsi
  rcases hof with hco | ⟨pending, hpe, hn⟩
  · exact ⟨journal', hs', .inl (hco.trans (hl.offsets stream))⟩
  · rcases hw.checkpoint hsi with ht | ⟨hno, -⟩ | ⟨pending', hp', ht⟩
    · exact ⟨_, ht, .inr ⟨pending, hpe, hn⟩⟩
    · cases hno.symm.trans hpe
    · cases hp'.symm.trans hpe
      exact ⟨_, ht, .inl hn⟩

theorem appendChunk_refused {chunk} (hb : chunk.decodedBytes = .ok bytes)
    (hne : bytes ≠ []) (hc : Covered chunk.stream chunk.nextOffset s) :
    ∃ error, appendChunk chunk s = ([], .error error) := by
  obtain ⟨-, hn⟩ := decodedBytes_eq_ok hb
  have hpo : 0 < bytes.length := length_pos_of_ne_nil hne
  obtain ⟨journal, hsi, hof⟩ := hc
  have hl : (liftM (chunk.decodedBytes.mapError LogError.worker) : LogM (List UInt8)) s =
      ([], .ok bytes) := Prog.lift_reads (by rw [hb]; rfl)
  rw [appendChunk, Prog.bind_of_reads hl]
  cases hw : s.writer with
  | none =>
    refine ⟨.io, Prog.bind_of_error ?_⟩
    rw [self, Prog.bind_of_reads (Prog.get_reads s), hw]
    rfl
  | some writer =>
    have hs : self s = ([], .ok writer) := by
      rw [self, Prog.bind_of_reads (Prog.get_reads s), hw]
      rfl
    rw [Prog.bind_of_reads hs]
    by_cases hsa : chunk.offset = writer.journal.committed.offsets.get chunk.stream
    · rw [Prog.bind_of_reads (Prog.require_reads hsa), if_neg hne]
      unfold append
      rw [Prog.bind_of_reads hs]
      refine ⟨invalid, Prog.bind_of_error ?_⟩
      rw [Prog.require, if_neg]
      · rfl
      · intro hr
        -- a writer that trusts its journal knows the offset, or the pending append
        obtain rfl := Option.some.inj ((h.writer writer hw hr.1).symm.trans hsi)
        rcases hof with hco | ⟨pending, hp, -⟩
        · omega
        · rw [hr.2.1] at hp
          cases hp
    · refine ⟨invalid, Prog.bind_of_error ?_⟩
      rw [Prog.require, if_neg hsa]
      rfl

/-- Where an append of a chunk stops, its intent is not durable or covers the chunk. -/
theorem appendChunk_covers {chunk} (hb : chunk.decodedBytes = .ok bytes)
    (ht : t ∈ (appendChunk chunk).exposed s) :
    Good taskId turnId t ∧ (t.intents = s.intents ∨ t.intents = s.intents ++ [bytes] ∧
      Covered chunk.stream chunk.nextOffset t) := by
  have hr : ReflTransGen (AppendWrite taskId turnId s bytes fun offsets =>
      offsets.get chunk.stream = chunk.nextOffset) s t := (appendChunk_tracks hb).exposed t ht
  refine Reach.invariant (p := fun t => Good taskId turnId t ∧ (t.intents = s.intents ∨
    t.intents = s.intents ++ [bytes] ∧ Covered chunk.stream chunk.nextOffset t)) ?_ ⟨h, .inl rfl⟩
    hr
  intro a b ha hw
  obtain ⟨hg, hc⟩ := ha
  obtain ⟨hw, hin⟩ := hw
  refine ⟨hw.good hg, ?_⟩
  rcases hin with hs | ⟨_, hn, journal, pending, hsi, hp, hof⟩
  · rw [hs]
    exact hc.imp_right fun h => ⟨h.1, hw.covered hg h.2⟩
  · exact .inr ⟨hn, journal, hsi, .inr ⟨pending, hp, hof.ge⟩⟩

end

section
variable (hr : Run taskId turnId s t)
include hr

theorem Run.later (h : Good taskId turnId s) (hs : s.sidecar = some journal) :
    ∃ journal', t.sidecar = some journal' ∧ Later journal.committed journal'.committed := by
  refine (hr.keeps (P := fun u => ∃ journal', u.sidecar = some journal' ∧
    Later journal.committed journal'.committed) h ⟨journal, hs, .refl _⟩ ?_).2
  rintro a b hg ⟨mid, hm, hl⟩ hw
  obtain ⟨journal', hj', hn⟩ := hw.later hg hm
  exact ⟨journal', hj', hl.trans hn⟩

theorem Run.completed (h : Good taskId turnId s)
    (hsi : s.sidecar = some journal) (hc : journal.committed.completion ≠ none) :
    t.sidecar = s.sidecar ∧ t.log = s.log ∧ t.intents = s.intents := by
  refine (hr.keeps (P := fun u => u.sidecar = s.sidecar ∧ u.log = s.log ∧ u.intents = s.intents)
    h ⟨rfl, rfl, rfl⟩ ?_).2
  rintro a b hg ⟨hs, hl, hi⟩ hw
  obtain ⟨hs', hl', hi'⟩ := hw.completed hg (hs.trans hsi) hc
  exact ⟨hs'.trans hs, hl'.trans hl, hi'.trans hi⟩

theorem Run.intents : s.intents <+: t.intents :=
  Reach.invariant (p := fun u => s.intents <+: u.intents)
    (fun _ _ ha hw => ha.trans hw.intents) (prefix_refl _) hr.writes

theorem Run.covered {stream offset} (h : Good taskId turnId s) (hc : Covered stream offset s) :
    Good taskId turnId t ∧ Covered stream offset t :=
  hr.keeps h hc fun _ _ hg hc hw => hw.covered hg hc

end

/-- **The runner log is atomic.** Whatever calls are made, and wherever each of them stops
by a failure or a crash: the checkpoint is accepted by its own check; the committed part of
the log is the concatenation of the payloads whose intent became durable, without at most
the last; opening the log commits that one too; intents, offsets, lengths and acceptance
are never taken back, and nothing is written after a completion. A call that succeeds has
made its payload durable, and a chunk whose intent is durable is refused from then on. -/
theorem runner_log_atomic (h : Run taskId turnId State.empty s) :
    (∀ journal, s.sidecar = some journal → decode taskId turnId journal = .ok ()) ∧
    (∀ snap, snapshot taskId turnId s = .ok (some snap) → ∃ done rest,
      s.intents = done ++ rest ∧ rest.length ≤ 1 ∧ readCommitted snap s = .ok done.flatten) ∧
    (∃ t, Returns (openLog taskId turnId) { s with writer := none } () t ∧
      t.intents = s.intents ∧ ∃ snap, snapshot taskId turnId t = .ok (some snap) ∧
        readCommitted snap t = .ok s.intents.flatten) ∧
    (∀ t, Run taskId turnId s t → s.intents <+: t.intents ∧ ∀ journal, s.sidecar = some journal →
        (∃ journal', t.sidecar = some journal' ∧ Later journal.committed journal'.committed) ∧
        (journal.committed.completion ≠ none →
          t.sidecar = s.sidecar ∧ t.log = s.log ∧ t.intents = s.intents)) ∧
    (∀ bytes, (appendBytes bytes).answer s = .ok () →
      ((appendBytes bytes).final s).intents = s.intents ++ bytes.toChunks chunkLimit) ∧
    (∀ completion bytes, (finish completion bytes).answer s = .ok true →
      ((finish completion bytes).final s).intents = s.intents ++ [bytes]) ∧
    ∀ chunk bytes, chunk.decodedBytes = .ok bytes → bytes ≠ [] →
      ((appendChunk chunk).answer s = .ok () →
        ((appendChunk chunk).final s).intents = s.intents ++ [bytes]) ∧
      ∀ t ∈ (appendChunk chunk).exposed s, t.intents = s.intents ∨
        t.intents = s.intents ++ [bytes] ∧ ∀ u, Run taskId turnId t u →
          ∃ error, appendChunk chunk u = ([], .error error) := by
  have hg := h.good
  refine ⟨fun journal hs => (hg.files.held hs).valid, fun snap => hg.files.readCommitted, ?_,
    fun t hru => ⟨hru.intents, fun journal hs => ⟨hru.later hg hs,
      hru.completed hg hs⟩⟩, ?_, ?_, ?_⟩
  · have hc : Good taskId turnId { s with writer := none } := LogWrite.good .detach hg
    obtain ⟨t, hr, hin, journal, hs, hp⟩ := openLog_returns hc rfl
    have hre : ReflTransGen (LogWrite taskId turnId) { s with writer := none } t := by
      rw [← hr.2]
      exact openLog_tracks.exposed _ (Prog.final_mem_exposed _ _)
    have ht : Good taskId turnId t := Reach.invariant (fun _ _ h hw => hw.good h) hc hre
    have hh := ht.files.held hs
    obtain ⟨hl, hle⟩ := hh.settled hp
    have hsn : ∃ snap, snapshot taskId turnId t = .ok (some snap) := by
      rw [snapshot, hs]
      exact ⟨_, then_eq_ok.mpr ⟨hh.valid, rfl⟩⟩
    obtain ⟨snap, hsn⟩ := hsn
    obtain ⟨journal', hj', hsl⟩ := snapshot_eq hsn
    cases hs.symm.trans hj'
    refine ⟨t, hr, hin, snap, hsn, ?_⟩
    rw [readCommitted_all hl (hsl.trans hle), hin]
  · intro bytes ha
    have htr : Tracks (LogWrite taskId turnId) (appendBytes bytes) s anyFailure _ :=
      appendPieces_tracks _
    exact htr.answered ha
  · intro completion bytes ha
    have htr : Tracks (LogWrite taskId turnId) (finish completion bytes) s anyFailure _ :=
      finish_tracks completion bytes
    exact htr.answered ha rfl
  · intro chunk bytes hb hne
    have htr : Tracks (AppendWrite taskId turnId s bytes _) (appendChunk chunk) s anyFailure _ :=
      appendChunk_tracks hb
    refine ⟨fun ha => htr.answered ha hne, fun t ht => ?_⟩
    obtain ⟨hgt, hca⟩ := appendChunk_covers hg hb ht
    refine hca.imp_right fun hco => ⟨hco.1, fun u hru => ?_⟩
    obtain ⟨hgu, hcu⟩ := hru.covered hgt hco.2
    exact appendChunk_refused hgu hb hne hcu

def sampleTask : TaskId := ⟨1⟩

def sampleTurn : TurnId := ⟨2⟩

def sampleChunk : LogChunk where
  stream := .stdout
  offset := 0
  nextOffset := 2
  data := "aGk="

/-- A crash after the first byte of a chunk. -/
theorem runner_log_atomic_torn :
    ∃ torn ∈ (appendChunk sampleChunk).exposed ((openLog sampleTask sampleTurn).final State.empty),
      torn.log = some [104] ∧
      ∃ t, Returns (openLog sampleTask sampleTurn) { torn with writer := none } () t ∧
        ∃ snap, snapshot sampleTask sampleTurn t = .ok (some snap) ∧
          readCommitted snap t = .ok [104, 105] := by
  have ht : ∃ torn ∈ (appendChunk sampleChunk).exposed
      ((openLog sampleTask sampleTurn).final State.empty),
      torn.log = some [104] ∧ torn.intents = [[104, 105]] := by decide +kernel
  obtain ⟨torn, hm, hl, hin⟩ := ht
  have hru : Run sampleTask sampleTurn State.empty torn :=
    (ReflTransGen.single (Step.call .open (Prog.final_mem_exposed _ _))).tail
      (.call (.appendChunk sampleChunk) hm)
  obtain ⟨-, -, ⟨t, hre, -, snap, hs, hr⟩, -⟩ := runner_log_atomic hru
  rw [hin] at hr
  exact ⟨torn, hm, hl, t, hre, snap, hs, hr⟩

end MacWorker.RunnerLog
