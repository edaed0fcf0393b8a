import MacWorker.RunnerLog.Recovery

/-! # Reading a runner log page by page

A reader asks for the committed bytes from the offset it got last, at most `limit` of them,
while the log grows. In line mode a page ends behind its last newline; a line that does not
fit is cut at the limit, and what is left of a log that is complete, or not followed, is
given as it is. -/
namespace MacWorker.RunnerLog
open Fallible List

def readCommittedRange (snapshot : Snapshot) (log : Option (List UInt8)) (offset limit : Nat) :
    Except LogError (List UInt8) :=
  let want := min (snapshot.len - offset) limit
  if snapshot.len < offset then
    .error (.worker (.task "TASK_CONFIG_INVALID" "log chunk offset is past the committed log"))
  else if snapshot.len ≠ 0 ∧ want = 0 then .ok []
  else match log with
    | none => .error .io
    | some log => readFrom log (offset + want) (want + 1) offset

/-- The place of the last newline. -/
def lastNewline : List UInt8 → Option Nat
  | [] => none
  | byte :: rest =>
    match lastNewline rest with
    | some i => some (i + 1)
    | none => if byte = 10 then some 0 else none

/-- Where a page ends. What was read is committed, so no sum here exceeds a `u64`. -/
def boundedChunkEnd (offset committedLen : Nat) (read : List UInt8) (raw follow complete : Bool) :
    Nat :=
  let untrimmedEnd := offset + read.length
  if raw = true then untrimmedEnd
  else if (complete = true ∨ follow = false) ∧ untrimmedEnd = committedLen then untrimmedEnd
  else match lastNewline read with
    | some i => offset + (i + 1)
    | none =>
      if untrimmedEnd < committedLen ∨ complete = true ∨ follow = false then untrimmedEnd
      else offset

/-- A call of the reader: what it asks for, and the log and its snapshot at that moment. -/
structure Poll where
  log : List UInt8
  snapshot : Snapshot
  limit : Nat
  (raw follow : Bool)

def Poll.complete (p : Poll) : Bool := p.snapshot.completion.isSome

/-- The bytes that are given, and the offset to go on from. -/
def Poll.page (p : Poll) (offset : Nat) : Except LogError (List UInt8 × Nat) := do
  let read ← readCommittedRange p.snapshot (some p.log) offset p.limit
  let next := boundedChunkEnd offset p.snapshot.len read p.raw p.follow p.complete
  return (read.take (next - offset), next)

def pages : List Poll → Nat → Except LogError (List UInt8 × Nat)
  | [], offset => .ok ([], offset)
  | p :: polls, offset => do
    let (bytes, next) ← p.page offset
    let (more, last) ← pages polls next
    return (bytes ++ more, last)

/-! ## One page -/

theorem lastNewline_some {read i} (h : lastNewline read = some i) : read[i]? = some 10 := by
  induction read generalizing i with
  | nil => cases h
  | cons byte rest ih =>
    rw [lastNewline] at h
    cases hr : lastNewline rest with
    | some j =>
      rw [hr] at h
      cases h
      exact ih hr
    | none =>
      rw [hr] at h
      simp only [Option.ite_none_right_eq_some, Option.some.injEq] at h
      simp [← h.2, h.1]

theorem lastNewline_none {read} (h : lastNewline read = none) : 10 ∉ read := by
  induction read with
  | nil => exact not_mem_nil
  | cons byte rest ih =>
    rw [lastNewline] at h
    cases hr : lastNewline rest with
    | some j => simp [hr] at h
    | none =>
      rw [hr] at h
      simp only [ite_eq_right_iff, reduceCtorEq, imp_false] at h
      rw [mem_cons, not_or]
      exact ⟨fun he => h he.symm, ih hr⟩

section
variable {p : Poll} {full : List UInt8} {offset next : Nat}

/-- At the time of the call a beginning of `full` is committed. -/
structure Poll.Reads (p : Poll) (full : List UInt8) : Prop where
  positive : 1 ≤ p.limit
  stored : p.snapshot.len ≤ p.log.length
  committed : p.log.take p.snapshot.len <+: full

theorem Poll.Reads.len_le (h : p.Reads full) : p.snapshot.len ≤ full.length := by
  have hl := h.committed.length_le
  rwa [length_take, Nat.min_eq_left h.stored] at hl

theorem Poll.Reads.take_eq (h : p.Reads full) {n} (hn : n ≤ p.snapshot.len) :
    p.log.take n = full.take n := by
  obtain ⟨rest, rfl⟩ := h.committed
  have hs := h.stored
  rw [take_append_of_le_length (by rw [length_take]; omega), take_take, Nat.min_eq_left hn]

theorem readCommittedRange_eq (h : p.Reads full) (ho : offset ≤ p.snapshot.len) :
    readCommittedRange p.snapshot (some p.log) offset p.limit =
      .ok ((full.drop offset).take (min (p.snapshot.len - offset) p.limit)) := by
  have hs := h.stored
  rw [readCommittedRange, if_neg (by omega)]
  split
  · rename_i hw
    rw [hw.2]
    rfl
  · rw [readFrom_eq (by omega) _ _ (by omega) (by omega), h.take_eq (by omega), drop_take,
      Nat.add_sub_cancel_left]

/-- What a call may do at an offset. -/
structure Poll.Fair (p : Poll) (full : List UInt8) (offset next : Nat) : Prop where
  le : offset ≤ next
  le_len : next ≤ p.snapshot.len
  le_limit : next ≤ offset + p.limit
  progress : next = offset → p.snapshot.len = offset ∨ p.follow = true ∧ p.complete = false ∧
    p.raw = false ∧ p.snapshot.len - offset ≤ p.limit ∧
    10 ∉ (full.take p.snapshot.len).drop offset
  whole : p.raw = false → next ≠ offset → ∀ before line after, full = before ++ line ++ after →
    10 ∉ line.dropLast → before = [] ∨ before.getLast? = some 10 → line.length ≤ p.limit →
    before.length < next → next < (before ++ line).length →
    next = p.snapshot.len ∧ (p.complete = true ∨ p.follow = false)

section
variable {before line after : List UInt8} (hf : full = before ++ line ++ after)
include hf

theorem not_inside (hl : 10 ∉ line.dropLast) (hn : full[next - 1]? = some 10)
    (hb : before.length < next) (hle : next < (before ++ line).length) : False := by
  rw [hf, getElem?_append_left (by omega), getElem?_append_right (by omega)] at hn
  rw [length_append] at hle
  refine hl (mem_of_getElem? (i := next - 1 - before.length) ?_)
  rw [getElem?_dropLast, if_pos (by omega), hn]

/-- A line through a window without newlines is longer than the window. -/
theorem long_of_window (hs : before = [] ∨ before.getLast? = some 10) {n}
    (hw : 10 ∉ (full.drop offset).take n) (hb : before.length < offset + n)
    (hle : offset + n < (before ++ line).length) : n < line.length := by
  have ho : before.length ≤ offset := by
    by_contra hlt
    rcases hs with rfl | hs
    · exact hlt (Nat.zero_le _)
    refine hw (mem_of_getElem? (i := before.length - 1 - offset) ?_)
    rw [getElem?_take_of_lt (by omega), getElem?_drop, hf, append_assoc,
      getElem?_append_left (by omega), ← hs, getLast?_eq_getElem?]
    congr 1
    omega
  rw [length_append] at hle
  omega

end

theorem Poll.fair_end (h : p.Reads full) (ho : offset ≤ p.snapshot.len) {read}
    (hr : read = (full.drop offset).take (min (p.snapshot.len - offset) p.limit))
    (hn : boundedChunkEnd offset p.snapshot.len read p.raw p.follow p.complete = next) :
    p.Fair full offset next := by
  have hl := h.len_le
  have hp := h.positive
  have hlen : read.length = min (p.snapshot.len - offset) p.limit := by
    rw [hr, length_take, length_drop]
    omega
  unfold boundedChunkEnd at hn
  dsimp only at hn
  split at hn
  · rename_i hraw
    refine ⟨by omega, by omega, by omega, fun _ => .inl (by omega), fun hno => ?_⟩
    simp [hraw] at hno
  split at hn
  · rename_i hen
    exact ⟨by omega, by omega, by omega, fun _ => .inl (by omega), fun _ _ _ _ _ _ _ _ _ _ _ =>
      ⟨by omega, hen.1⟩⟩
  split at hn
  · rename_i i hi
    have hs := lastNewline_some hi
    have hlt := (List.getElem?_eq_some_iff.mp hs).1
    refine ⟨by omega, by omega, by omega, fun _ => by omega,
      fun _ _ before line after hf hli _ _ hb hle => ?_⟩
    rw [hr, getElem?_take_of_lt (by omega), getElem?_drop] at hs
    refine (not_inside hf hli ?_ hb hle).elim
    rw [← hn]
    exact hs
  · rename_i hraw hend _ hno
    have hw := lastNewline_none hno
    split at hn
    · rename_i hcut
      have hlt : offset + read.length < p.snapshot.len := by
        rcases hcut with hlt | hc
        · exact hlt
        · have hne : offset + read.length ≠ p.snapshot.len := fun he => hend ⟨hc, he⟩
          omega
      refine ⟨by omega, by omega, by omega, fun _ => .inl (by omega), ?_⟩
      intro _ _ before line after hf _ hs hli hb hle
      rw [hr] at hw
      have := long_of_window hf hs hw (by omega) (by omega)
      omega
    · rename_i hfo
      rw [not_or, not_or, Bool.not_eq_true, Bool.not_eq_false] at hfo
      refine ⟨by omega, by omega, by omega, fun _ => .inr ⟨hfo.2.2, hfo.2.1,
        by simpa using hraw, by omega, ?_⟩, fun _ hne => absurd hn.symm hne⟩
      rw [drop_take]
      have he : min (p.snapshot.len - offset) p.limit = p.snapshot.len - offset := by omega
      rwa [← he, ← hr]

theorem Poll.page_fair (h : p.Reads full) (ho : offset ≤ p.snapshot.len) :
    ∃ next, p.page offset = .ok ((full.take next).drop offset, next) ∧ p.Fair full offset next := by
  have hf := p.fair_end h ho rfl rfl
  refine ⟨_, ?_, hf⟩
  have hle := hf.le_len
  have hlm := hf.le_limit
  rw [Poll.page, readCommittedRange_eq h ho, bind_ok, pure_eq_ok, take_take, drop_take,
    Nat.min_eq_left (by omega)]

end

/-! ## All pages -/

/-- The calls of a reader while the committed log grows, to `full` in the end. -/
structure Growing (polls : List Poll) (full : List UInt8) : Prop where
  reads : ∀ p ∈ polls, p.Reads full
  grows : polls.Pairwise fun a b => a.snapshot.len ≤ b.snapshot.len

section
variable {polls : List Poll} {full : List UInt8} {offset : Nat}

theorem pages_eq (h : Growing polls full) (ho : ∀ p ∈ polls, offset ≤ p.snapshot.len) {m}
    (hm : ∀ p ∈ polls, p.snapshot.len ≤ m) (hom : offset ≤ m) : ∃ last, offset ≤ last ∧ last ≤ m ∧
      pages polls offset = .ok ((full.take last).drop offset, last) := by
  induction polls generalizing offset with
  | nil =>
    refine ⟨offset, Nat.le_refl _, hom, ?_⟩
    rw [drop_eq_nil_of_le (length_take_le _ _)]
    rfl
  | cons p polls ih =>
    obtain ⟨hp, hg⟩ := pairwise_cons.mp h.grows
    obtain ⟨next, hpa, hf⟩ := p.page_fair (h.reads p mem_cons_self) (ho p mem_cons_self)
    obtain ⟨last, hle, hlm, hr⟩ := ih ⟨fun q hq => h.reads q (mem_cons_of_mem _ hq), hg⟩
      (fun q hq => hf.le_len.trans (hp q hq)) (fun q hq => hm q (mem_cons_of_mem _ hq))
      (hf.le_len.trans (hm p mem_cons_self))
    refine ⟨last, hf.le.trans hle, hlm, ?_⟩
    rw [pages, hpa, bind_ok]
    simp only
    have hno := hf.le
    have hd : last - offset = next - offset + (last - next) := by omega
    rw [hr, bind_ok, pure_eq_ok, drop_take, drop_take, drop_take, hd, take_add, drop_drop,
      Nat.add_sub_cancel' hno]

/-- **Every committed byte is given once, in order**, and no call is stuck or cuts a line
without need. -/
theorem paging_exact (h : Growing polls full) :
    (∃ last, pages polls 0 = .ok (full.take last, last)) ∧
    ∀ before p after, polls = before ++ p :: after → ∃ offset next,
      pages before 0 = .ok (full.take offset, offset) ∧
      p.page offset = .ok ((full.take next).drop offset, next) ∧ p.Fair full offset next := by
  refine ⟨?_, fun before p after heq => ?_⟩
  · obtain ⟨last, -, -, hl⟩ := pages_eq h (fun _ _ => Nat.zero_le _)
      (fun p hp => (h.reads p hp).len_le) (Nat.zero_le _)
    exact ⟨last, hl⟩
  · subst heq
    obtain ⟨hb, -, hlt⟩ := pairwise_append.mp h.grows
    obtain ⟨offset, -, hle, hr⟩ := pages_eq ⟨fun q hq => h.reads q (mem_append_left _ hq), hb⟩
      (fun _ _ => Nat.zero_le _) (fun q hq => hlt q hq p mem_cons_self) (Nat.zero_le _)
    obtain ⟨next, hp⟩ := p.page_fair (h.reads p (by simp)) hle
    exact ⟨offset, next, hr, hp⟩

/-- The log grows between two calls. -/
theorem paging_exact_followed : ∃ last,
    pages [⟨[97, 10, 98], ⟨3, none, true⟩, 8, false, true⟩,
        ⟨[97, 10, 98, 99, 10], ⟨5, none, true⟩, 3, false, true⟩] 0 =
      .ok ([97, 10, 98, 99, 10].take last, last) :=
  (paging_exact ⟨forall_mem_cons.mpr ⟨⟨by decide, by decide, by decide⟩,
    forall_mem_singleton.mpr ⟨by decide, by decide, by decide⟩⟩, by decide⟩).1

end

end MacWorker.RunnerLog
