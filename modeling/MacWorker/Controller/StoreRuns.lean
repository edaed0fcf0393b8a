import MacWorker.Controller.StoreWrites
import MacWorker.Lib.Reach

/-! # Runs of the request store

A run is any sequence of calls and ticks, each cut off after any of its durable
writes. A published row keeps its identity and, once saved, its result. -/
namespace MacWorker.Controller
open Durable Fallible Json Relation

structure Tick where
  handler : CommandHandler
  config : ActiveResumeConfig
  now : Nat
  busy : RequestId → Bool

def Tick.run (codec : Codec) (tick : Tick) : StoreM ActiveResumeReport :=
  resumeActiveBounded codec tick.handler tick.config tick.now tick.busy

/-- One call or tick, or the part of it before a crash. -/
inductive Step (codec : Codec) (s t : Store) : Prop
  | handle (request : ControllerRequest) (handler : CommandHandler) (now : Nat)
      (h : t ∈ (handleWith codec request handler now).exposed s)
  | tick (tick : Tick) (h : t ∈ (tick.run codec).exposed s)

def Run (codec : Codec) : Store → Store → Prop := ReflTransGen (Step codec)

variable {codec : Codec} {s t : Store} {id : RequestId} {row : DurableRequest}

theorem Step.writes (h : Step codec s t) : ReflTransGen TickWrite s t := by
  cases h with
  | handle request handler now h =>
    have ht : Tracks Write (handleWith codec request handler now) s anyFailure
        fun _ _ => True := handleWith_rule request (tracks_closed handler) now
    exact (ht.weaken fun _ _ h => .row h).exposed t h
  | tick tick h =>
    exact (resumeActiveBounded_tracks tick.handler tick.config tick.now tick.busy).exposed t h

theorem Run.writes (h : Run codec s t) : ReflTransGen TickWrite s t := by
  induction h with
  | refl => exact .refl
  | tail _ hs ih => exact ih.trans hs.writes

/-! ## What a row keeps -/

structure Continues (row row' : DurableRequest) : Prop where
  same : row' = { row with phase := row'.phase, result := row'.result }
  result : row.result ≠ none → row'.result = row.result

theorem Continues.refl (row : DurableRequest) : Continues row row := ⟨rfl, fun _ => rfl⟩

theorem Continues.trans {row' row''} (h : Continues row row') (h' : Continues row' row'') :
    Continues row row'' := by
  refine ⟨?_, fun hs => ?_⟩
  · rw [h'.same, h.same]
  · rw [h'.result (by rw [h.result hs]; exact hs), h.result hs]

theorem lookup_insert_cases {rows : AList fun _ : RequestId => DurableRequest}
    (key : RequestId) (new : DurableRequest) (hr : rows.lookup id = some row) :
    (id = key ∧ (rows.insert key new).lookup id = some new) ∨
      (id ≠ key ∧ (rows.insert key new).lookup id = some row) := by
  by_cases heq : id = key
  · subst heq
    exact .inl ⟨rfl, AList.lookup_insert _⟩
  · exact .inr ⟨heq, by rw [AList.lookup_insert_ne heq, hr]⟩

/-- **No write takes a row away or changes its identity or its saved result.** -/
theorem FileWrite.continues (h : FileWrite s t) (hr : s.rows.lookup id = some row) :
    ∃ row', t.rows.lookup id = some row' ∧ Continues row row' := by
  cases h with
  | receipt hne => exact ⟨row, hr, .refl row⟩
  | retire => exact ⟨row, hr, .refl row⟩
  | @publish new receipt hne =>
    rcases lookup_insert_cases new.requestId new hr with ⟨rfl, -⟩ | ⟨-, hk⟩
    · cases hne.symm.trans hr
    · exact ⟨row, hk, .refl row⟩
  | @save old value hol hn =>
    rcases lookup_insert_cases old.requestId (old.withResult value) hr with ⟨rfl, hne⟩ | ⟨-, hk⟩
    · cases hol.symm.trans hr
      exact ⟨_, hne, rfl, fun hs => absurd hn hs⟩
    · exact ⟨row, hk, .refl row⟩
  | @ack old hol hs =>
    rcases lookup_insert_cases old.requestId old.acknowledged hr with ⟨rfl, hne⟩ | ⟨-, hk⟩
    · cases hol.symm.trans hr
      exact ⟨_, hne, rfl, fun _ => rfl⟩
    · exact ⟨row, hk, .refl row⟩

theorem Write.continues (h : Write s t) (hr : s.rows.lookup id = some row) :
    ∃ row', t.rows.lookup id = some row' ∧ Continues row row' := by
  cases h with
  | file hf => exact hf.continues hr
  | execute => exact ⟨row, hr, .refl row⟩

def Store.executions (s : Store) (id : RequestId) : List Execution :=
  s.executed.filter fun e => e.record.requestId = id

section
variable (hr : s.rows.lookup id = some row)
include hr

theorem Write.executions (h : Write s t)
    (hs : row.result ≠ none) : t.executions id = s.executions id := by
  cases h with
  | @execute old record answer hol hn =>
    have hne : record.requestId ≠ id := by
      intro heq
      subst heq
      cases hol.symm.trans hr
      exact hs hn
    simp [Store.executions, hne]
  | file hf => rw [Store.executions, Store.executions, hf.executed]

theorem Run.continues (h : Run codec s t) :
    ∃ row', t.rows.lookup id = some row' ∧ Continues row row' := by
  refine Reach.invariant (p := fun u => ∃ row', u.rows.lookup id = some row' ∧ Continues row row')
    ?_ ⟨row, hr, .refl row⟩ h.writes
  intro a b ha hs
  obtain ⟨mid, hm, hc⟩ := ha
  cases hs with
  | row hw =>
    obtain ⟨row', hr', hn⟩ := hw.continues hm
    exact ⟨row', hr', hc.trans hn⟩
  | cursor heq =>
    subst heq
    exact ⟨mid, hm, hc⟩

theorem Run.executions (h : Run codec s t)
    (hs : row.result ≠ none) : t.executions id = s.executions id := by
  have hk := Reach.invariant (p := fun u => u.executions id = s.executions id ∧
    ∃ row', u.rows.lookup id = some row' ∧ Continues row row') ?_
    ⟨rfl, row, hr, .refl row⟩ h.writes
  · exact hk.1
  · intro a b ha hst
    obtain ⟨hsa, mid, hm, hc⟩ := ha
    have hms : mid.result ≠ none := by
      rw [hc.result hs]
      exact hs
    cases hst with
    | row hw =>
      obtain ⟨row', hr', hn⟩ := hw.continues hm
      exact ⟨(hw.executions hm hms).trans hsa, row', hr', hc.trans hn⟩
    | cursor heq =>
      subst heq
      exact ⟨hsa, mid, hm, hc⟩

/-! ## Answers for a request that has a row -/

theorem loadLocked_of_row : loadLocked codec id s = ([], (readRecord codec id row).map some) := by
  rw [loadLocked, Prog.bind_of_reads (Prog.get_reads s), hr]
  simp only
  generalize readRecord codec id row = read
  cases read with
  | error e => rfl
  | ok record => rfl

end

theorem textLen_acknowledged (row : DurableRequest) :
    textLen row.acknowledged.toJson ≤ textLen row.toJson := by
  have hp : memberLen ("phase", .str RequestPhase.acked.text) ≤
      memberLen ("phase", .str row.phase.text) := by
    cases row.phase <;> decide
  simp only [DurableRequest.toJson, DurableRequest.acknowledged, List.cons_append,
    textLen_obj_cons, List.map_cons, List.map_append, List.sum_cons, List.sum_append,
    List.nil_append]
  omega

theorem readRecord_self : readRecord codec id row = .ok row ↔
    textLen row.toJson ≤ maxStoredRequestBytes ∧ row.reparse codec = some row ∧
      validateRecord codec id row = .ok () := by
  unfold readRecord
  rw [then_eq_ok, ensureStoredSize, ensure_eq_ok]
  refine and_congr_right fun _ => ?_
  constructor
  · intro h
    split at h
    next parsed hp =>
      obtain ⟨hv, h⟩ := of_then h
      cases h
      exact ⟨hp, hv⟩
    next => cases h
  · intro h
    obtain ⟨hp, hv⟩ := h
    rw [hp]
    exact then_eq_ok.mpr ⟨hv, rfl⟩

theorem readRecord_acknowledged (h : readRecord codec id row = .ok row) :
    readRecord codec id row.acknowledged = .ok row.acknowledged := by
  obtain ⟨hs, hp, hv⟩ := readRecord_self.mp h
  refine readRecord_self.mpr ⟨(textLen_acknowledged row).trans hs, ?_, hv⟩
  obtain ⟨hb, hpr, hr, -⟩ := reparse_eq_some.mp hp
  exact reparse_eq_some.mpr ⟨hb, hpr, hr, rfl⟩

theorem spec_answerSettled (record : DurableRequest) {Q : Store → Prop}
    (hr : ∀ active, Q { s with active := active }) :
    Spec (answerSettled record) s (fun _ => True) fun answer t =>
      answer = settled record ∧ Q t := by
  unfold answerSettled retireReceipt
  simp only [spec_bind, spec_get]
  split
  · exact spec_pure.mpr (spec_lift.mpr ⟨rfl, hr s.active⟩)
  · exact spec_write.mpr ⟨trivial, spec_lift.mpr ⟨rfl, hr _⟩⟩

theorem spec_exchange {next} (hr : s.rows.lookup row.requestId = some row) {Q}
    (hd : textLen next.toJson ≤ maxStoredRequestBytes →
      Q (.ok true) { s with rows := s.rows.insert next.requestId next })
    (hl : ¬ textLen next.toJson ≤ maxStoredRequestBytes → ∀ e, Q (.error e) s) :
    Spec (exchange row next) s (fun _ => True) Q := by
  by_cases hs : textLen next.toJson ≤ maxStoredRequestBytes
  · have hf : ensureStoredSize next.toJson = .ok () := ensure_of hs
    rw [exchange, hf, spec_bind, spec_lift]
    simp only
    rw [replaceExact, spec_bind, spec_get]
    simp only [hr]
    rw [if_pos trivial, spec_bind, putRow, spec_write]
    exact ⟨trivial, spec_pure.mpr (hd hs)⟩
  · rw [exchange, ensureStoredSize, ensure, if_neg hs, spec_bind, spec_lift]
    exact hl hs _

theorem acknowledged_of_acked (h : row.phase = .acked) : row.acknowledged = row := by
  cases row
  subst h
  rfl

theorem saveResult_saved {handler attempt} (hs : row.result ≠ none) :
    saveResult codec handler attempt row = pure (.inl row) := by
  unfold saveResult
  cases hr : row.result with
  | none => exact absurd hr hs
  | some value => rfl

end MacWorker.Controller
