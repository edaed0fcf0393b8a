import MacWorker.Controller.StoreExecutions
import MacWorker.Lib.Rotation

/-! # The active index

The receipt of a request is written before its row and removed after the row is
acknowledged, so that a row that is still waiting is found by the tick. The tick
attempts a window of the index and leaves a cursor behind: consecutive ticks over
an index that stays the same reach every entry. -/
namespace MacWorker.Controller
open Durable Fallible Json Relation List

variable {codec : Codec} {s t : Store} {id : RequestId} {row : DurableRequest}

/-! ## Waiting rows have receipts -/

theorem activeFileName_injective : Function.Injective activeFileName := by
  intro a b h
  have ht : a.text = b.text := by
    have hl := congrArg String.toList h
    simp only [activeFileName, String.toList_append] at hl
    exact String.toList_inj.mp (append_cancel_right hl)
  cases a
  cases b
  cases ht
  rfl

structure Discoverable (s : Store) : Prop where
  named : ∀ id row, s.rows.lookup id = some row → row.requestId = id
  indexed : ∀ id row, s.rows.lookup id = some row → row.phase = .published →
    ∃ receipt, s.active.lookup (activeFileName id) = some receipt ∧ Indexes receipt row

theorem Discoverable.empty : Discoverable Store.empty := ⟨nofun, nofun⟩

theorem Discoverable.putRow (h : Discoverable s) (hr : row.phase = .published →
      ∃ receipt, s.active.lookup (activeFileName row.requestId) = some receipt ∧
        Indexes receipt row) :
    Discoverable { s with rows := s.rows.insert row.requestId row } := by
  refine ⟨fun id other hot => ?_, fun id other hot hp => ?_⟩
  · by_cases heq : id = row.requestId
    · subst heq
      rw [AList.lookup_insert] at hot
      rw [← Option.some.inj hot]
    · rw [AList.lookup_insert_ne heq] at hot
      exact h.named id other hot
  · by_cases heq : id = row.requestId
    · subst heq
      rw [AList.lookup_insert] at hot
      cases hot
      exact hr hp
    · rw [AList.lookup_insert_ne heq] at hot
      exact h.indexed id other hot hp

theorem FileWrite.discoverable (hw : FileWrite s t) (h : Discoverable s) : Discoverable t := by
  cases hw with
  | @receipt new hn =>
    refine ⟨h.named, fun id row hro hp => ?_⟩
    obtain ⟨receipt, hr, hin⟩ := h.indexed id row hro hp
    have hne : activeFileName id ≠ activeFileName new.requestId := by
      intro heq
      rw [heq, hn] at hr
      cases hr
    exact ⟨receipt, by rw [AList.lookup_insert_ne hne, hr], hin⟩
  | publish hn hre hr hin =>
    exact h.putRow fun _ => ⟨_, hr, hin⟩
  | @save row value hro hre =>
    refine @Discoverable.putRow _ (row.withResult value) h fun hp => ?_
    obtain ⟨receipt, hr, hin⟩ := h.indexed _ row hro hp
    exact ⟨receipt, hr, hin.requestId, hin.payloadSha256, hin.command⟩
  | @ack row hro hre => exact @Discoverable.putRow _ row.acknowledged h nofun
  | @retire gone hs =>
    refine ⟨h.named, fun id row hro hp => ?_⟩
    obtain ⟨receipt, hr, hin⟩ := h.indexed id row hro hp
    have hne : activeFileName id ≠ activeFileName gone := by
      intro heq
      obtain rfl := activeFileName_injective heq
      rw [hs row hro] at hp
      cases hp
    exact ⟨receipt, by rw [AList.lookup_erase_ne hne, hr], hin⟩

theorem TickWrite.discoverable (hw : TickWrite s t) (h : Discoverable s) : Discoverable t := by
  cases hw with
  | row hw =>
    cases hw with
    | file hw => exact hw.discoverable h
    | execute hro hr => exact ⟨h.named, h.indexed⟩
  | cursor heq =>
    subst heq
    exact ⟨h.named, h.indexed⟩

theorem Run.discoverable (h : Run codec Store.empty s) : Discoverable s :=
  Reach.invariant (fun _ _ h hw => hw.discoverable h) Discoverable.empty h.writes

/-! ## What consecutive ticks attempt -/

theorem rotatePastCursor_eq_past (cursor : Option String) (sorted : List String) :
    rotatePastCursor cursor sorted = Rotation.past cursor sorted := by
  unfold rotatePastCursor Rotation.past Rotation.start
  cases cursor with
  | none => simp
  | some last =>
    simp only
    cases sorted.findIdx? fun name => last < name with
    | none => simp
    | some pos => rfl

theorem activeNames_sorted (s : Store) : (activeNames s).Pairwise (· < ·) := by
  have hle : (activeNames s).Pairwise (· ≤ ·) := @Json.sortBy_sorted _ id _
  have hne : (activeNames s).Nodup :=
    (mergeSort_perm _ _).nodup_iff.mpr (s.active.keys_nodup.filter _)
  exact (hle.and hne).imp fun h => lt_of_le_of_ne h.1 h.2

theorem mem_activeNames {receipt} (h : s.active.lookup (activeFileName id) = some receipt) :
    activeFileName id ∈ activeNames s := by
  have hk : activeFileName id ∈ s.active.keys := by
    rw [← AList.mem_keys, ← AList.lookup_isSome, h]
    rfl
  have hs : ".json".toList.isSuffixOf (activeFileName id).toList = true := by
    rw [isSuffixOf_iff_suffix, activeFileName, String.toList_append]
    exact suffix_append _ _
  rw [activeNames, mem_mergeSort]
  exact mem_filter.mpr ⟨hk, hs⟩

/-- A tick does not fail; it attempts its window, and the cursor is left at the end of it. -/
theorem Tick.attempts (tick : Tick) (s : Store) :
    let window := (Rotation.past (readCursor s) (activeNames s)).take
      (max tick.config.maxRequestsPerTick 1)
    (∃ report, (tick.run codec).answer s = .ok report ∧
      report.attempted.map Prod.fst = window ∧
      Attempted codec tick.handler tick.config tick.now tick.busy s report.attempted) ∧
      ∀ last, window.getLast? = some last → readCursor ((tick.run codec).final s) = some last := by
  have ht : Tracks TickWrite (tick.run codec) s (fun _ _ => False) _ :=
    resumeActiveBounded_tracks tick.handler tick.config tick.now tick.busy
  simp only [rotatePastCursor_eq_past] at ht
  have hen := ht.2
  cases ha : (tick.run codec).answer s with
  | error e =>
    rw [ha] at hen
    exact hen.2.elim
  | ok report =>
    rw [ha] at hen
    exact ⟨⟨report, rfl, hen.2.1⟩, hen.2.2⟩

/-- **Waiting requests are found and attempted.** Wherever a run stops, the receipt of
every published row is there. And from any cursor on, over `n` entries that stay the
same, `n / b` ticks of `b` entries each, rounded up, attempt every one of them; other
calls may run between the ticks. -/
theorem waiting_requests_attempted (h : Run codec Store.empty s) :
    (∀ id row, s.rows.lookup id = some row → row.phase = .published →
      activeFileName id ∈ activeNames s ∧
      ∃ receipt, s.active.lookup (activeFileName id) = some receipt ∧
        receipt.requestId = id ∧ receipt.command = row.command ∧
        receipt.payloadSha256 = row.payloadSha256) ∧
    ∀ (names : List String) (b : Nat) (ticks : Nat → Tick) (before : Nat → Store), 1 ≤ b →
      (∀ k, k < names.length ⌈/⌉ b → activeNames (before k) = names ∧
        (ticks k).config.maxRequestsPerTick = b ∧
        readCursor (before (k + 1)) = readCursor (((ticks k).run codec).final (before k))) →
      ∀ name ∈ names, ∃ k, k < names.length ⌈/⌉ b ∧
        ∃ report, ((ticks k).run codec).answer (before k) = .ok report ∧
          ∃ outcome, (name, outcome) ∈ report.attempted ∧
            ∃ u, ReflTransGen TickWrite (before k) u ∧ (attemptEntry codec (ticks k).handler
              (ticks k).config (ticks k).now (ticks k).busy name).answer u = .ok outcome := by
  refine ⟨fun id row hro hp => ?_, fun names b ticks before hb ht name hna => ?_⟩
  · obtain ⟨receipt, hr, hin⟩ := h.discoverable.indexed id row hro hp
    refine ⟨mem_activeNames hr, receipt, hr, ?_, hin.command, hin.payloadSha256⟩
    rw [hin.requestId, h.discoverable.named id row hro]
  · have hs : 0 < names.length ⌈/⌉ b → names.Pairwise (· < ·) := by
      intro hf
      rw [← (ht 0 hf).1]
      exact activeNames_sorted _
    have hw : max b 1 = b := Nat.max_eq_left hb
    have hne : ∀ k, k < names.length ⌈/⌉ b → ∀ last,
        ((Rotation.past (readCursor (before k)) names).take b).getLast? = some last →
          readCursor (before (k + 1)) = some last := by
      intro k hk last hl
      obtain ⟨hn, hbo, hc⟩ := ht k hk
      rw [hc]
      refine (Tick.attempts (ticks k) (before k)).2 last ?_
      rw [hn, hbo, hw]
      exact hl
    obtain ⟨k, hk, hwi⟩ := Rotation.windows_cover_ceilDiv hb hs
      (fun k => readCursor (before k)) hne name hna
    obtain ⟨hn, hbo, -⟩ := ht k hk
    obtain ⟨⟨report, ha, hat, hout⟩, -⟩ := @Tick.attempts codec (ticks k) (before k)
    rw [← hw, ← hbo, ← hn, ← hat] at hwi
    obtain ⟨⟨_, outcome⟩, hm, rfl⟩ := mem_map.mp hwi
    exact ⟨k, hk, report, ha, outcome, hm, hout _ _ hm⟩

def sampleTick : Tick := ⟨answering .null, ⟨1, 0⟩, 9, fun _ => false⟩

def otherRequest : ControllerRequest :=
  { sampleRequest with requestId := ⟨"00000000000000000000000000000002", by decide⟩ }

/-- The stores before ticks of one entry each. -/
def Store.ticking (s : Store) : Nat → Store
  | 0 => s
  | k + 1 => { s with cursor := ((sampleTick.run sampleCodec).final (s.ticking k)).cursor }

/-- The receipt of another request is written before the ticks. -/
theorem waiting_requests_attempted_large :
    let s := (handleWith sampleCodec sampleRequest (answering largeResult) 7).final Store.empty
    let t := { s with
      active := s.active.insert (activeFileName otherRequest.requestId)
        (receiptOf sampleCodec otherRequest 8) }
    let name := activeFileName sampleRequest.requestId
    s.rows.lookup sampleRequest.requestId = some sampleRecord ∧
    ∃ k report outcome, (sampleTick.run sampleCodec).answer (t.ticking k) = .ok report ∧
      (name, outcome) ∈ report.attempted ∧ ∃ u, ReflTransGen TickWrite (t.ticking k) u ∧
        (attemptEntry sampleCodec (answering .null) ⟨1, 0⟩ 9 (fun _ => false) name).answer u =
          .ok outcome := by
  intro s t name
  have hru : Run sampleCodec Store.empty s :=
    .single (.handle sampleRequest (answering largeResult) 7 (Prog.final_mem_exposed _ _))
  have hr : s.rows.lookup sampleRequest.requestId = some sampleRecord := by
    rw [(sampleRequest_executed largeResult).unsaved (by rintro _ ⟨⟩; exact largeResult_unfit _)]
    exact AList.lookup_insert _
  obtain ⟨hin, ht⟩ := waiting_requests_attempted hru
  obtain ⟨-, receipt, hre, -⟩ := hin _ _ hr rfl
  have hne : name ≠ activeFileName otherRequest.requestId := by decide +kernel
  have hn : name ∈ activeNames t :=
    mem_activeNames (by rw [AList.lookup_insert_ne hne, hre])
  have hb (k) : activeNames (t.ticking k) = activeNames t := by cases k <;> rfl
  obtain ⟨k, -, report, ha, outcome, hm, hu⟩ := ht _ 1 (fun _ => sampleTick) t.ticking le_rfl
    (fun k _ => ⟨hb k, rfl, rfl⟩) name hn
  exact ⟨hr, k, report, outcome, ha, hm, hu⟩

end MacWorker.Controller
