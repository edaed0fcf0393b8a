import MacWorker.Base
import Mathlib.Data.List.DropRight

/-! # The output of a turn

Two pumps copy the output of the agent into `stdout.log` and `stderr.log` up to
a cap and remember whether there was more.

A record of the agent's protocol is a line. Bytes come in chunks of any size, and the
complete lines are taken out of what is pending. A line of the limit or more is no record:
it is passed over, and while it is not complete nothing of it is kept. What is taken out
of a stream is a function of the stream alone (`drain_append`), so the scan of the running
turn and the later scan of `stdout.log` consider the same records. -/
namespace MacWorker.Turn
open List

def logCapBytes : Nat := 256 * 1024 * 1024

def logTailBytes : Nat := 64 * 1024

def maxLogChunkBytes : Nat := 64 * 1024

def maxNdjsonRecordBytes : Nat := 1024 * 1024

def maxPromptBytes : Nat := 256 * 1024

/-! ## Pumps -/

structure StreamPumpConfig where
  (cap tail postStopDrain : Nat)

def StreamPumpConfig.production : StreamPumpConfig := ⟨logCapBytes, logTailBytes, logTailBytes⟩

/-- What a pump has stored, how much it has seen, and the last bytes of it. -/
structure Pumped where
  stored : List UInt8
  total : Nat
  tail : List UInt8

def Pumped.empty : Pumped := ⟨[], 0, []⟩

/-- One read: the bytes, and whether the pump has been told to stop by then. -/
structure Read where
  bytes : List UInt8
  stop : Bool

/-- How much of a read counts after the pump was told to stop. -/
def takePostStopBytes (count : Nat) (stopping : Bool) (afterStop postStopDrain : Nat) :
    Option Nat :=
  if stopping then
    if postStopDrain - afterStop = 0 then none else some (min count (postStopDrain - afterStop))
  else some count

variable (config : StreamPumpConfig)

def Pumped.absorb (p : Pumped) (bytes : List UInt8) : Pumped where
  stored := p.stored ++ bytes.take (config.cap - p.stored.length)
  total := p.total + bytes.length
  tail := (p.tail ++ bytes).drop ((p.tail ++ bytes).length - max config.tail 1)

/-- The reads up to the end of the stream, or up to the read after which the
pump gives up. -/
def pump (config : StreamPumpConfig) (p : Pumped) (stopping : Bool) (afterStop : Nat) :
    List Read → Pumped
  | [] => p
  | read :: reads =>
    match takePostStopBytes read.bytes.length stopping afterStop config.postStopDrain with
    | none => p
    | some take =>
      let absorbed := p.absorb config (read.bytes.take take)
      let afterStop := if stopping then afterStop + take else afterStop
      let stopping := stopping || read.stop
      if stopping = true ∧ config.postStopDrain ≤ afterStop then absorbed
      else pump config absorbed stopping afterStop reads

/-- A capped stderr ends with the last bytes of the stream. -/
def persistCappedStderrTail (p : Pumped) : List UInt8 :=
  if p.total ≤ p.stored.length then p.stored
  else p.stored ++ p.tail.drop (p.tail.length - (p.total - p.stored.length))

structure TurnPumpResult where
  (stdout stderr : List UInt8)
  (stdoutTruncated logTruncated : Bool)

def turnPumps (stdout stderr : List Read) : TurnPumpResult :=
  let out := pump config .empty false 0 stdout
  let err := pump config .empty false 0 stderr
  { stdout := out.stored
    stderr := persistCappedStderrTail err
    stdoutTruncated := config.cap < out.total
    logTruncated := config.cap < out.total || config.cap < err.total }

theorem turnPumps_one (bytes : List UInt8) :
    (turnPumps config [⟨bytes, false⟩] []).stdout = bytes.take config.cap ∧
    (turnPumps config [⟨bytes, false⟩] []).stdoutTruncated = decide (config.cap < bytes.length) ∧
    (turnPumps config [⟨bytes, false⟩] []).logTruncated = decide (config.cap < bytes.length) := by
  simp [turnPumps, pump, takePostStopBytes, Pumped.absorb, Pumped.empty]

/-! ## Records -/

def newline : UInt8 := 10

structure Unfinished where
  pending : List UInt8
  discardUntilNewline : Bool

/-- The next complete record, and what is pending behind it. -/
def takeNextCompleteRecord (maxRecord : Nat) (pending : List UInt8) (discard : Bool) :
    Option (List UInt8) × Unfinished :=
  match _h : pending.dropWhile (· != newline) with
  | [] =>
    if discard then (none, ⟨[], true⟩)
    else if maxRecord < pending.length then (none, ⟨[], true⟩)
    else (none, ⟨pending, false⟩)
  | _ :: rest =>
    if discard then takeNextCompleteRecord maxRecord rest false
    else if maxRecord ≤ (pending.takeWhile (· != newline)).length then
      takeNextCompleteRecord maxRecord rest false
    else (some (pending.takeWhile (· != newline) ++ [newline]), ⟨rest, false⟩)
termination_by pending.length
decreasing_by
  all_goals
    have hle := (dropWhile_suffix (· != newline) (l := pending)).length_le
    rw [_h, length_cons] at hle
    omega

/-! ## One line at a time -/

theorem lines_induction {motive : List UInt8 → Prop} (unfinished : ∀ p, newline ∉ p → motive p)
    (line : ∀ l rest, newline ∉ l → motive rest → motive (l ++ newline :: rest)) (p : List UInt8) :
    motive p := by
  induction hn : p.length using Nat.strong_induction_on generalizing p with
  | _ n ih =>
    by_cases h : newline ∈ p
    · obtain ⟨l, rest, rfl, hl⟩ := eq_append_cons_of_mem h
      rw [length_append, length_cons] at hn
      exact line l rest hl (ih rest.length (by omega) rest rfl)
    · exact unfinished p h

variable {maxRecord : Nat} {p l rest : List UInt8} {d : Bool}

theorem takeNext_unfinished (h : newline ∉ p) : takeNextCompleteRecord maxRecord p d =
    (none, if d = true ∨ maxRecord < p.length then ⟨[], true⟩ else ⟨p, false⟩) := by
  have hd : p.dropWhile (· != newline) = [] :=
    dropWhile_eq_nil_iff.mpr fun b hb => bne_iff_ne.mpr fun he => h (he ▸ hb)
  rw [takeNextCompleteRecord]
  split
  · cases d <;> simp only [Bool.false_eq_true, false_or, true_or, if_true, if_false]
    split <;> rfl
  · rename_i hc
    rw [hd] at hc
    cases hc

theorem takeNext_line (h : newline ∉ l) :
    takeNextCompleteRecord maxRecord (l ++ newline :: rest) d =
    if d = true ∨ maxRecord ≤ l.length then takeNextCompleteRecord maxRecord rest false
    else (some (l ++ [newline]), ⟨rest, false⟩) := by
  have hl : ∀ b ∈ l, (b != newline) = true := fun b hb => bne_iff_ne.mpr fun he => h (he ▸ hb)
  have hd : (l ++ newline :: rest).dropWhile (· != newline) = newline :: rest := by
    rw [dropWhile_append_of_pos hl]
    exact dropWhile_cons_of_neg (by simp)
  have ht : (l ++ newline :: rest).takeWhile (· != newline) = l := by
    rw [takeWhile_append_of_pos hl, takeWhile_cons_of_neg (by simp), append_nil]
  rw [takeNextCompleteRecord]
  split
  · rename_i hc
    rw [hd] at hc
    cases hc
  · rename_i hc
    rw [hd] at hc
    cases hc
    rw [ht]
    cases d <;> simp

theorem takeNext_shorter {r u} (h : takeNextCompleteRecord maxRecord p d = (some r, u)) :
    u.pending.length < p.length ∧ u.discardUntilNewline = false := by
  induction p using lines_induction generalizing d with
  | unfinished p hp =>
    rw [takeNext_unfinished hp] at h
    cases h
  | line l rest hl ih =>
    rw [takeNext_line hl] at h
    simp only [length_append, length_cons]
    split at h
    · obtain ⟨hr, hu⟩ := ih h
      exact ⟨by omega, hu⟩
    · cases h
      dsimp only
      exact ⟨by omega, rfl⟩

/-! ## Draining -/

def drain (maxRecord : Nat) (pending : List UInt8) (discard : Bool) :
    List (List UInt8) × Unfinished :=
  match _h : takeNextCompleteRecord maxRecord pending discard with
  | (none, unfinished) => ([], unfinished)
  | (some record, unfinished) =>
    let later := drain maxRecord unfinished.pending unfinished.discardUntilNewline
    (record :: later.1, later.2)
termination_by pending.length
decreasing_by exact (takeNext_shorter _h).1

theorem drain_unfinished (h : newline ∉ p) : drain maxRecord p d =
    ([], if d = true ∨ maxRecord < p.length then ⟨[], true⟩ else ⟨p, false⟩) := by
  have ht := @takeNext_unfinished maxRecord _ d h
  rw [drain]
  split
  · simp_all
  · simp_all

/-- What a complete line gives. -/
def lineRecord (maxRecord : Nat) (discard : Bool) (line : List UInt8) : List (List UInt8) :=
  if discard = true ∨ maxRecord ≤ line.length then [] else [line ++ [newline]]

theorem drain_line (h : newline ∉ l) : drain maxRecord (l ++ newline :: rest) d =
    (lineRecord maxRecord d l ++ (drain maxRecord rest false).1,
      (drain maxRecord rest false).2) := by
  have ht := @takeNext_line maxRecord _ rest d h
  unfold lineRecord
  by_cases hc : d = true ∨ maxRecord ≤ l.length
  · rw [if_pos hc] at ht ⊢
    rw [drain, ht, drain]
    rfl
  · rw [if_neg hc] at ht ⊢
    rw [drain]
    split
    · simp_all
    · simp_all

theorem drain_skipping (h : d = true ∨ maxRecord < p.length) (hp : newline ∉ p)
    (chunk : List UInt8) : drain maxRecord (p ++ chunk) d = drain maxRecord chunk true := by
  induction chunk using lines_induction with
  | unfinished chunk hc =>
    rw [drain_unfinished hc, drain_unfinished (by simp [hp, hc]),
      if_pos (.inl rfl : true = true ∨ _),
      if_pos (h.imp_right fun hl => by rw [length_append]; omega)]
  | line l rest hl _ =>
    rw [drain_line hl, ← append_assoc, drain_line (by simp [hp, hl])]
    rw [lineRecord, if_pos (h.imp_right fun hl => by rw [length_append]; omega)]
    rfl

/-- **A stream that comes in two pieces gives the records of the whole.** -/
theorem drain_append (p chunk : List UInt8) (d : Bool) :
    let first := drain maxRecord p d
    let second := drain maxRecord (first.2.pending ++ chunk) first.2.discardUntilNewline
    drain maxRecord (p ++ chunk) d = (first.1 ++ second.1, second.2) := by
  induction p using lines_induction generalizing d with
  | unfinished p hp =>
    rw [drain_unfinished hp]
    dsimp only
    split
    · next h => exact drain_skipping h hp chunk
    · next h =>
      rw [not_or, Bool.not_eq_true] at h
      rw [h.1]
      rfl
  | line l rest hl ih =>
    rw [drain_line hl, append_assoc, cons_append, drain_line hl, ih]
    dsimp only
    rw [append_assoc]

theorem drain_pending (p : List UInt8) (d : Bool) :
    (drain maxRecord p d).2.pending.length ≤ maxRecord ∧
      newline ∉ (drain maxRecord p d).2.pending := by
  induction p using lines_induction generalizing d with
  | unfinished p hp =>
    rw [drain_unfinished hp]
    dsimp only
    split
    · exact ⟨Nat.zero_le _, not_mem_nil⟩
    · next h => exact ⟨Nat.le_of_not_lt fun hl => h (.inr hl), hp⟩
  | line l rest hl ih =>
    rw [drain_line hl]
    exact ih false

/-- The records of a stream: its complete lines under the limit. -/
def records (maxRecord : Nat) (stream : List UInt8) : List (List UInt8) :=
  ((stream.splitOn newline).dropLast.filter fun line => line.length < maxRecord).map
    (· ++ [newline])

theorem drain_records (stream : List UInt8) :
    (drain maxRecord stream false).1 = records maxRecord stream := by
  unfold records
  induction stream using lines_induction with
  | unfinished p hp => rw [drain_unfinished hp, splitOn_eq_singleton hp]; rfl
  | line l rest hl ih =>
    rw [drain_line hl, ih, splitOn_append_cons_self_of_not_mem hl,
      dropLast_cons_of_ne_nil (splitOn_ne_nil _ _), lineRecord]
    by_cases hc : maxRecord ≤ l.length
    · rw [if_pos (.inr hc), filter_cons_of_neg (by simpa using hc)]
      rfl
    · rw [if_neg (by simp [hc]), filter_cons_of_pos (by simpa using hc)]
      rfl

def feedChunks (maxRecord : Nat) (chunks : List (List UInt8)) : List (List UInt8) × Unfinished :=
  chunks.foldl (fun fed chunk =>
    let drained := drain maxRecord (fed.2.pending ++ chunk) fed.2.discardUntilNewline
    (fed.1 ++ drained.1, drained.2)) ([], ⟨[], false⟩)

theorem feedChunks_concat (chunks : List (List UInt8)) (chunk : List UInt8) :
    feedChunks maxRecord (chunks ++ [chunk]) =
      let fed := feedChunks maxRecord chunks
      let drained := drain maxRecord (fed.2.pending ++ chunk) fed.2.discardUntilNewline
      (fed.1 ++ drained.1, drained.2) :=
  foldl_concat ..

theorem feedChunks_eq (chunks : List (List UInt8)) :
    feedChunks maxRecord chunks = drain maxRecord chunks.flatten false := by
  induction chunks using reverseRecOn with
  | nil =>
    rw [flatten_nil, drain_unfinished not_mem_nil, if_neg (by simp)]
    rfl
  | append_singleton chunks chunk ih =>
    rw [flatten_append, flatten_singleton, drain_append, ← ih, feedChunks_concat]

/-! ## The scan of the running turn -/

section
variable {σ ε : Type} (scanOne : σ → List UInt8 → Except ε (σ × Bool))

/-- The scan of a running turn: what is stored, whether the session is bound, and what is
pending. -/
structure Live (σ : Type) where
  store : σ
  sessionBound : Bool
  unfinished : Unfinished

def scanTurnLines (store : σ) (pending : List UInt8) (discard : Bool) : Except ε (Live σ) :=
  match _h : takeNextCompleteRecord maxNdjsonRecordBytes pending discard with
  | (none, unfinished) => .ok ⟨store, false, unfinished⟩
  | (some line, unfinished) => do
    let (store, bound) ← scanOne store line
    if bound then .ok ⟨store, true, [], unfinished.discardUntilNewline⟩
    else scanTurnLines store unfinished.pending unfinished.discardUntilNewline
termination_by pending.length
decreasing_by exact (takeNext_shorter _h).1

/-- A chunk that the pump read is scanned while the session is not bound. -/
def Live.absorb (live : Live σ) (chunk : List UInt8) : Except ε (Live σ) :=
  if live.sessionBound then .ok live
  else scanTurnLines scanOne live.store (live.unfinished.pending ++ chunk)
    live.unfinished.discardUntilNewline

/-- Records in order, until one binds the session. -/
def scanUntilBound (store : σ) : List (List UInt8) → Except ε (σ × Bool)
  | [] => .ok (store, false)
  | line :: lines => do
    let (store, bound) ← scanOne store line
    if bound then .ok (store, true) else scanUntilBound store lines

theorem scanUntilBound_append (store : σ) (ls ms : List (List UInt8)) :
    scanUntilBound scanOne store (ls ++ ms) = (do
      let (store, bound) ← scanUntilBound scanOne store ls
      if bound then .ok (store, true) else scanUntilBound scanOne store ms) := by
  induction ls generalizing store with
  | nil => rfl
  | cons l ls ih =>
    simp only [cons_append, scanUntilBound]
    cases hs : scanOne store l with
    | error e => rfl
    | ok r =>
      obtain ⟨store', bound⟩ := r
      cases bound
      · exact ih store'
      · rfl

/-- After the record that binds the session nothing is pending. -/
def Live.after (unfinished : Unfinished) (found : σ × Bool) : Live σ :=
  ⟨found.1, found.2, if found.2 then ⟨[], false⟩ else unfinished⟩

theorem scanTurnLines_eq (store : σ) (p : List UInt8) (d : Bool) : scanTurnLines scanOne store p d =
    (scanUntilBound scanOne store (drain maxNdjsonRecordBytes p d).1).map
      (Live.after (drain maxNdjsonRecordBytes p d).2) := by
  induction p using lines_induction generalizing d store with
  | unfinished p hp =>
    have ht := @takeNext_unfinished maxNdjsonRecordBytes _ d hp
    rw [drain_unfinished hp, scanTurnLines]
    split
    · simp_all [scanUntilBound, Live.after, Except.map]
    · simp_all
  | line l rest hl ih =>
    have ht := @takeNext_line maxNdjsonRecordBytes _ rest d hl
    rw [drain_line hl]
    unfold lineRecord
    by_cases hc : d = true ∨ maxNdjsonRecordBytes ≤ l.length
    · rw [if_pos hc] at ht ⊢
      rw [nil_append, ← ih, scanTurnLines, ht, scanTurnLines]
    · rw [if_neg hc] at ht ⊢
      rw [scanTurnLines, ht]
      simp only [singleton_append, scanUntilBound]
      cases hs : scanOne store (l ++ [newline]) with
      | error e => rfl
      | ok r =>
        obtain ⟨store', bound⟩ := r
        cases bound
        · exact ih store' false
        · rfl

theorem foldlM_absorb (store : σ) (chunks : List (List UInt8)) :
    chunks.foldlM (Live.absorb scanOne) ⟨store, false, ⟨[], false⟩⟩ =
      (scanUntilBound scanOne store (feedChunks maxNdjsonRecordBytes chunks).1).map
        (Live.after (feedChunks maxNdjsonRecordBytes chunks).2) := by
  induction chunks using reverseRecOn with
  | nil => rfl
  | append_singleton chunks chunk ih =>
    rw [foldlM_append, ih, feedChunks_concat, scanUntilBound_append]
    cases hs : scanUntilBound scanOne store (feedChunks maxNdjsonRecordBytes chunks).1 with
    | error e => rfl
    | ok r =>
      obtain ⟨store', bound⟩ := r
      cases bound
      · exact (bind_pure _).trans (scanTurnLines_eq scanOne _ _ _)
      · rfl

end

/-! ## The scan of the log -/

/-- A record that may hold the result of the turn. -/
inductive CandidateKind where
  | explicitResult
  | other

/-- How text and records are read: lossy decoding, the kind of a JSON record,
whether bytes are one JSON object, and the session a record starts. -/
structure RecordReader where
  text : List UInt8 → String
  candidateKind : String → Option CandidateKind
  completeJsonObject : List UInt8 → Bool
  sessionRef : String → Option String

/-- Lines under a byte budget, oldest first. -/
structure BoundedLines where
  lines : List String
  used : Nat

def BoundedLines.push (b : BoundedLines) (text : String) (limit : Nat) : BoundedLines :=
  if limit < (bytes text).length then b
  else go b.lines b.used
where
  /-- Drop the oldest lines until the new one fits. -/
  go : List String → Nat → BoundedLines
  | [], used =>
    if limit < used + (bytes text).length then ⟨[], used⟩
    else ⟨[text], used + (bytes text).length⟩
  | oldest :: rest, used =>
    if limit < used + (bytes text).length then go rest (used - (bytes oldest).length)
    else ⟨oldest :: rest ++ [text], used + (bytes text).length⟩

structure Found where
  sessionRef : Option String
  (results others : BoundedLines)

def Found.empty : Found := ⟨none, ⟨[], 0⟩, ⟨[], 0⟩⟩

def Found.join (f : Found) : String := "\n".intercalate (f.results.lines ++ f.others.lines)

section
variable (reader : RecordReader)

def considerProtocolRecord (found : Found) (record : List UInt8) : Found :=
  let text := String.ofList
    ((reader.text record).toList.rdropWhile (fun c => c == '\r' || c == '\n'))
  let found :=
    if found.sessionRef.isNone then { found with sessionRef := reader.sessionRef text } else found
  if maxPromptBytes < (bytes text).length then found
  else
    match reader.candidateKind text with
    | some .explicitResult => { found with results := found.results.push text maxPromptBytes }
    | some .other => { found with others := found.others.push text maxPromptBytes }
    | none => found

/-- Where the scan stands: the unfinished line, and whether it is being skipped. -/
structure Scan where
  pending : List UInt8
  discardUntilNewline : Bool
  found : Found

def consumePendingRecords (pending : List UInt8) (discard : Bool) (found : Found) : Scan :=
  match _h : takeNextCompleteRecord maxNdjsonRecordBytes pending discard with
  | (none, unfinished) => ⟨unfinished.pending, unfinished.discardUntilNewline, found⟩
  | (some record, unfinished) =>
    consumePendingRecords unfinished.pending unfinished.discardUntilNewline
      (considerProtocolRecord reader found record)
termination_by pending.length
decreasing_by exact (takeNext_shorter _h).1

structure StdoutScan where
  sessionRef : Option String
  resultText : String
  truncated : Bool

def StdoutScan.empty : StdoutScan := ⟨none, "", false⟩

/-- Read the log chunk by chunk up to its cap. The flag says whether the cap was
met with bytes left. A chunk has at least one byte, so the length of the log is
enough fuel. -/
def scanChunks : Nat → List UInt8 → Nat → Scan → Scan × Bool
  | 0, _, _, scan => (scan, false)
  | fuel + 1, rest, stored, scan =>
    let chunk := rest.take maxLogChunkBytes
    let room := logCapBytes - stored
    if chunk = [] then (scan, false)
    else if room = 0 then (scan, true)
    else
      let next := consumePendingRecords reader (scan.pending ++ chunk.take room)
        scan.discardUntilNewline scan.found
      if room < chunk.length then (next, true)
      else scanChunks fuel (rest.drop maxLogChunkBytes) (stored + chunk.length) next

def finishScan (scan : Scan) (capped : Bool) : StdoutScan :=
  if scan.discardUntilNewline then ⟨scan.found.sessionRef, scan.found.join, true⟩
  else if scan.pending.all isAsciiWhitespace then ⟨scan.found.sessionRef, scan.found.join, capped⟩
  else if reader.completeJsonObject scan.pending then
    let found := considerProtocolRecord reader scan.found scan.pending
    ⟨found.sessionRef, found.join, capped⟩
  else ⟨scan.found.sessionRef, scan.found.join, true⟩

def scanStdoutProtocol (stdout : List UInt8) : StdoutScan :=
  let (scan, capped) := scanChunks reader stdout.length stdout 0 ⟨[], false, .empty⟩
  finishScan reader scan capped

theorem consumePendingRecords_eq (p : List UInt8) (d : Bool) (found : Found) :
    let drained := drain maxNdjsonRecordBytes p d
    consumePendingRecords reader p d found = ⟨drained.2.pending, drained.2.discardUntilNewline,
      drained.1.foldl (considerProtocolRecord reader) found⟩ := by
  fun_induction drain maxNdjsonRecordBytes p d generalizing found with
  | case1 p d unfinished ht =>
    rw [consumePendingRecords]
    split <;> simp_all
  | case2 p d record unfinished ht later ih =>
    rw [consumePendingRecords]
    split <;> simp_all [later]

/-- What the scan knows after a part of the log. -/
def scanOf (log : List UInt8) : Scan :=
  let drained := drain maxNdjsonRecordBytes log false
  ⟨drained.2.pending, drained.2.discardUntilNewline,
    drained.1.foldl (considerProtocolRecord reader) .empty⟩

theorem consume_scanOf (log chunk : List UInt8) :
    consumePendingRecords reader ((scanOf reader log).pending ++ chunk)
      (scanOf reader log).discardUntilNewline (scanOf reader log).found =
        scanOf reader (log ++ chunk) := by
  unfold scanOf
  rw [consumePendingRecords_eq reader, drain_append log]
  dsimp only
  rw [foldl_append]

theorem take_chunk {chunk room : Nat} (h : min chunk rest.length ≤ room) :
    rest.take chunk ++ (rest.drop chunk).take (room - min chunk rest.length) = rest.take room := by
  rcases Nat.le_total chunk rest.length with hl | hl
  · rw [Nat.min_eq_left hl] at h ⊢
    rw [← take_add, Nat.add_sub_cancel' h]
  · rw [Nat.min_eq_right hl] at h
    rw [drop_of_length_le hl, take_nil, append_nil, take_of_length_le hl, take_of_length_le h]

theorem scanChunks_eq (fuel : Nat) (before rest : List UInt8) (stored : Nat)
    (h : rest.length ≤ fuel) : scanChunks reader fuel rest stored (scanOf reader before) =
      (scanOf reader (before ++ rest.take (logCapBytes - stored)),
        decide (logCapBytes - stored < rest.length)) := by
  induction fuel generalizing before rest stored with
  | zero =>
    obtain rfl := eq_nil_of_length_eq_zero (Nat.le_zero.mp h)
    simp [scanChunks]
  | succ fuel ih =>
    have hp : 0 < maxLogChunkBytes := by decide
    have hle : (rest.take maxLogChunkBytes).length = min maxLogChunkBytes rest.length := length_take
    unfold scanChunks
    dsimp only
    rw [consume_scanOf]
    by_cases hr : rest = []
    · subst hr
      simp
    have hn := length_pos_iff.mpr hr
    rw [if_neg (by rw [← length_eq_zero_iff]; omega)]
    split
    · next hz => rw [hz, take_zero, append_nil, decide_eq_true hn]
    split
    · next hz hc =>
      rw [take_take, Nat.min_eq_left (by omega), decide_eq_true (by omega)]
    · next hz hc =>
      rw [ih _ _ _ (by rw [length_drop]; omega), length_drop, append_assoc,
        take_of_length_le (Nat.le_of_not_lt hc), hle, ← Nat.sub_sub, take_chunk (by omega)]
      congr 2
      exact propext (by omega)

theorem scanStdoutProtocol_eq (log : List UInt8) : scanStdoutProtocol reader log =
    finishScan reader (scanOf reader (log.take logCapBytes))
      (decide (logCapBytes < log.length)) := by
  have hs := scanChunks_eq reader _ [] log 0 le_rfl
  have he : scanOf reader [] = ⟨[], false, .empty⟩ := by
    unfold scanOf
    rw [drain_unfinished not_mem_nil, if_neg (by simp)]
    rfl
  rw [he] at hs
  unfold scanStdoutProtocol
  dsimp only
  rw [hs]
  rfl

/-- A log of empty lines holds nothing, however long it is. -/
theorem scanStdoutProtocol_newlines {log}
    (hinert : ∀ record, considerProtocolRecord reader .empty record = .empty)
    (h : ∀ b ∈ log, b = newline) (hr : log.length ≤ logCapBytes) :
    (scanStdoutProtocol reader log).truncated = false := by
  have hn : scanOf reader log = ⟨[], false, .empty⟩ := by
    unfold scanOf
    induction log with
    | nil =>
      rw [drain_unfinished not_mem_nil, if_neg (by simp)]
      rfl
    | cons b log ih =>
      obtain rfl := h b mem_cons_self
      have hl := @drain_line maxNdjsonRecordBytes [] log false not_mem_nil
      rw [nil_append, lineRecord, if_neg (by decide)] at hl
      rw [hl]
      dsimp only
      rw [singleton_append, foldl_cons, hinert]
      exact ih (fun c hc => h c (mem_cons_of_mem _ hc)) ((Nat.le_succ _).trans hr)
  rw [scanStdoutProtocol_eq, take_of_length_le hr, hn, decide_eq_false (by omega)]
  rfl

/-- **The records of a stream do not depend on its chunks.** They are its complete lines
under the limit, in order, and no more than the limit is ever pending. The scan of the
running turn goes through them until one binds the session, and the later scan goes
through those of the log, whatever follows the last line apart. -/
theorem records_of_chunks (maxRecord : Nat) (chunks : List (List UInt8)) :
    (feedChunks maxRecord chunks).1 = records maxRecord chunks.flatten ∧
    (feedChunks maxRecord chunks).2.pending.length ≤ maxRecord ∧
    (∀ {σ ε : Type} (scanOne : σ → List UInt8 → Except ε (σ × Bool)) (store : σ),
      (chunks.foldlM (Live.absorb scanOne) ⟨store, false, ⟨[], false⟩⟩).map
          (fun live => (live.store, live.sessionBound)) =
        scanUntilBound scanOne store (records maxNdjsonRecordBytes chunks.flatten)) ∧
    ∀ reader : RecordReader,
      let log := chunks.flatten.take logCapBytes
      let unfinished := (drain maxNdjsonRecordBytes log false).2
      scanStdoutProtocol reader chunks.flatten =
        finishScan reader ⟨unfinished.pending, unfinished.discardUntilNewline,
            (records maxNdjsonRecordBytes log).foldl (considerProtocolRecord reader) .empty⟩
          (decide (logCapBytes < chunks.flatten.length)) := by
  refine ⟨?_, ?_, fun scanOne store => ?_, fun reader => ?_⟩
  · rw [feedChunks_eq, drain_records]
  · rw [feedChunks_eq]
    exact (drain_pending _ _).1
  · rw [foldlM_absorb, feedChunks_eq, drain_records]
    cases scanUntilBound scanOne store (records maxNdjsonRecordBytes chunks.flatten) <;> rfl
  · rw [scanStdoutProtocol_eq]
    dsimp only
    rw [← drain_records]
    rfl

end

end MacWorker.Turn
