import Mathlib.Data.List.DropRight

/-! # Scanning for authentication failures

The streams of a dead turn are searched for the phrases of its agent's signatures one chunk
at a time. Between two chunks the scan keeps only the end of what it has read, one byte less
than the longest phrase. What the scan knows after some calls is given by the segments those
calls spell (`known`); each call takes it from one to the next, however they are cut. -/
namespace MacWorker.Agent
open List

/-- A phrase is given by its bytes. -/
inductive AuthFailureSignature where
  | contains (phrase : List UInt8)
  | containsAll (group : List (List UInt8))

inductive ScanKind where
  | contains
  | all (count : Nat)

namespace AuthFailureSignature

def phrases : AuthFailureSignature → List (List UInt8)
  | contains phrase => [phrase]
  | containsAll group => group

def kind : AuthFailureSignature → ScanKind
  | contains _ => .contains
  | containsAll group => .all group.length

/-- What a signature asks of the phrases seen. -/
def Met (seen : List UInt8 → Prop) : AuthFailureSignature → Prop
  | contains phrase => seen phrase
  | containsAll group => ∀ phrase ∈ group, seen phrase

end AuthFailureSignature

structure AuthFailureScan where
  kinds : List ScanKind
  phrases : List (List UInt8)
  found : List Bool
  window : List UInt8
  maxOverlap : Nat

def findBytes (haystack needle : List UInt8) : Bool :=
  needle.isEmpty || (range (haystack.length + 1 - needle.length)).any fun start =>
    (haystack.drop start).take needle.length == needle

theorem findBytes_iff {haystack needle} : findBytes haystack needle = true ↔
    needle <:+: haystack := by
  simp only [findBytes, Bool.or_eq_true, List.isEmpty_iff, any_eq_true, mem_range, beq_iff_eq]
  constructor
  · rintro (rfl | ⟨i, -, hi⟩)
    · exact nil_infix
    · rw [← hi]
      exact (List.take_prefix _ _).isInfix.trans (drop_suffix _ _).isInfix
  · rintro ⟨before, after, rfl⟩
    exact .inr ⟨before.length, by simp; omega, by simp⟩

namespace AuthFailureScan

def new (signatures : List AuthFailureSignature) : AuthFailureScan :=
  let phrases := signatures.flatMap (·.phrases)
  { kinds := signatures.map (·.kind)
    phrases
    found := replicate phrases.length false
    window := []
    maxOverlap := (phrases.map (·.length - 1)).max?.getD 0 }

def push (scan : AuthFailureScan) (chunk : List UInt8) : AuthFailureScan :=
  if scan.phrases.isEmpty || (chunk.isEmpty && scan.window.isEmpty) then scan else
  let search := scan.window ++ chunk
  let keep := min scan.maxOverlap search.length
  { scan with
    found := zipWith (fun found phrase => found || findBytes search phrase) scan.found scan.phrases
    window := search.drop (search.length - keep) }

def resetWindow (scan : AuthFailureScan) : AuthFailureScan :=
  { scan with window := [] }

def matchedFrom (found : List Bool) : Nat → List ScanKind → Bool
  | _, [] => false
  | index, .contains :: kinds => found.getD index false || matchedFrom found (index + 1) kinds
  | index, .all count :: kinds =>
    ((found.drop index).take count).all id || matchedFrom found (index + count) kinds

def matched (scan : AuthFailureScan) : Bool :=
  matchedFrom scan.found 0 scan.kinds

inductive Call where
  | push (chunk : List UInt8)
  | resetWindow

def call (scan : AuthFailureScan) : Call → AuthFailureScan
  | .push chunk => scan.push chunk
  | .resetWindow => scan.resetWindow

/-- The chunks between two resets, joined; `current` is the segment still open. -/
structure Segments where
  closed : List (List UInt8) := []
  current : List UInt8 := []

def Segments.call (segments : Segments) : Call → Segments
  | .push chunk => { segments with current := segments.current ++ chunk }
  | .resetWindow => ⟨segments.closed ++ [segments.current], []⟩

def Segments.Has (segments : Segments) (phrase : List UInt8) : Prop :=
  ∃ segment ∈ segments.closed ++ [segments.current], phrase <:+: segment

theorem Segments.has_iff {segments : Segments} {phrase} : segments.Has phrase ↔
    (∃ segment ∈ segments.closed, phrase <:+: segment) ∨ phrase <:+: segments.current := by
  simp only [Has, mem_append, mem_singleton, or_and_right, exists_or, exists_eq_left]

instance (segments : Segments) : DecidablePred segments.Has := fun _ =>
  inferInstanceAs (Decidable (∃ _ ∈ _, _))

/-- The scan that has read the segments, said without its calls. -/
def known (signatures : List AuthFailureSignature) (segments : Segments) : AuthFailureScan :=
  let scan := new signatures
  { scan with
    found := scan.phrases.map fun phrase => decide (segments.Has phrase)
    window := segments.current.rtake scan.maxOverlap }

theorem rtake_append_rtake {k} (current chunk : List UInt8) :
    (current.rtake k ++ chunk).rtake k = (current ++ chunk).rtake k := by
  simp only [rtake, drop_append, length_append, length_drop, drop_drop]
  congr 2 <;> omega

/-- A phrase that the chunk completes starts in the bytes kept. -/
theorem infix_append_rtake {phrase current chunk : List UInt8} {k} (hk : phrase.length - 1 ≤ k) :
    phrase <:+: current ++ chunk ↔ phrase <:+: current ∨ phrase <:+: current.rtake k ++ chunk := by
  have hs : current.rtake k <:+ current := drop_suffix _ _
  constructor
  · intro h
    rcases infix_append_iff_ne_nil.mp h with h | h | ⟨t, u, ht, hu, rfl, hx, hy⟩
    · exact .inl h
    · exact .inr (h.trans (suffix_append _ _).isInfix)
    · have hu := length_pos_iff.mpr hu
      have hl : t <:+ current.rtake k := suffix_of_suffix_length_le hx hs (by
        have := hx.length_le
        simp only [length_append] at hk
        simp only [rtake, length_drop]
        omega)
      obtain ⟨x, hx⟩ := hl
      obtain ⟨y, hy⟩ := hy
      exact .inr ⟨x, y, by rw [← hx, ← hy]; simp⟩
  · rintro (h | h)
    · exact h.trans (prefix_append _ _).isInfix
    · obtain ⟨x, hx⟩ := hs
      exact h.trans ⟨x, [], by rw [← append_assoc, hx, append_nil]⟩

variable {signatures : List AuthFailureSignature}

theorem push_known (segments : Segments) (chunk) :
    (known signatures segments).push chunk = known signatures (segments.call (.push chunk)) := by
  unfold push
  split
  · next h =>
    rcases Bool.or_eq_true _ _ ▸ h with h | h
    · have he : signatures.flatMap (·.phrases) = [] := by simpa [known, new] using h
      simp [known, new, he, rtake]
    · have he : chunk = [] := by simp_all
      simp [he, Segments.call]
  · simp only [known, mk.injEq, true_and, and_true]
    constructor
    · rw [zipWith_map_left, zipWith_self]
      refine map_congr_left fun phrase hp => ?_
      have hk : phrase.length - 1 ≤ (new signatures).maxOverlap :=
        le_max?_getD_of_mem (mem_map_of_mem hp)
      rw [Bool.eq_iff_iff, Bool.or_eq_true, findBytes_iff, decide_eq_true_iff, decide_eq_true_iff,
        Segments.has_iff, Segments.has_iff, or_assoc]
      exact or_congr_right (infix_append_rtake hk).symm
    · rw [Segments.call, ← rtake_append_rtake, rtake]
      congr 1
      omega

theorem call_known (h : ∀ phrase ∈ signatures.flatMap (·.phrases), phrase ≠ [])
    (segments : Segments) (c) :
    (known signatures segments).call c = known signatures (segments.call c) := by
  cases c with
  | push chunk => exact push_known segments chunk
  | resetWindow =>
    simp only [call, resetWindow, known, Segments.call, rtake_nil, mk.injEq, true_and, and_true]
    refine map_congr_left fun phrase hp => decide_eq_decide.mpr ?_
    have hn : ¬ phrase <:+: [] := fun hi => h phrase hp (infix_nil.mp hi)
    simp only [@Segments.has_iff ⟨_, []⟩, hn, or_false]
    rfl

theorem new_known (h : ∀ phrase ∈ signatures.flatMap (·.phrases), phrase ≠ []) :
    new signatures = known signatures {} := by
  simp only [known, new, rtake_nil, mk.injEq, true_and, and_true]
  refine (map_eq_replicate_iff.mpr fun phrase hp => ?_).symm
  simpa [Segments.has_iff] using h phrase hp

theorem matchedFrom_map (seen : List UInt8 → Prop) [DecidablePred seen] (before : List Bool) :
    matchedFrom (before ++ (signatures.flatMap (·.phrases)).map (decide <| seen ·)) before.length
      (signatures.map (·.kind)) = true ↔ ∃ signature ∈ signatures, signature.Met seen := by
  induction signatures generalizing before with
  | nil => simp [matchedFrom]
  | cons signature rest ih =>
    specialize ih (before ++ signature.phrases.map (decide <| seen ·))
    cases signature with
    | contains phrase =>
      simpa [matchedFrom, AuthFailureSignature.phrases, AuthFailureSignature.kind,
        AuthFailureSignature.Met] using or_congr_right ih
    | containsAll group =>
      simpa [matchedFrom, AuthFailureSignature.phrases, AuthFailureSignature.kind,
        AuthFailureSignature.Met] using or_congr_right ih

theorem maxOverlap_le : (new signatures).maxOverlap ≤
    ((signatures.flatMap (·.phrases)).map length).max?.getD 0 - 1 := by
  cases hm : ((signatures.flatMap (·.phrases)).map (length · - 1)).max? with
  | none => simp [new, hm]
  | some overlap =>
    obtain ⟨phrase, hp, rfl⟩ := mem_map.mp (max?_mem hm)
    simp only [new, hm, Option.getD_some]
    exact Nat.sub_le_sub_right (le_max?_getD_of_mem (mem_map_of_mem hp)) 1

/-- Whatever the calls, the scan matches when a signature is met inside the segments they
spell, and keeps less than the longest phrase. -/
theorem auth_scan_exact (h : ∀ phrase ∈ signatures.flatMap (·.phrases), phrase ≠ [])
    (calls : List Call) :
    let scan := calls.foldl call (new signatures)
    (scan.matched = true ↔
      ∃ signature ∈ signatures, signature.Met (calls.foldl Segments.call {}).Has) ∧
    scan.window.length ≤ ((signatures.flatMap (·.phrases)).map length).max?.getD 0 - 1 := by
  have hr : calls.foldl call (new signatures) =
      known signatures (calls.foldl Segments.call {}) := by
    rw [new_known h]
    exact foldl_hom _ fun segments c => call_known h segments c
  intro scan
  rw [show scan = _ from hr]
  refine ⟨matchedFrom_map _ [], Nat.le_trans ?_ maxOverlap_le⟩
  dsimp only [known, rtake]
  rw [length_drop]
  omega

/-- A group whose phrases stand on both sides of a reset, one of them cut in two. -/
theorem auth_scan_exact_split :
    ([.push [52], .push [48, 49], .resetWindow, .push [107, 101, 121]].foldl call
      (new [.containsAll [[52, 48, 49], [107, 101]]])).matched = true :=
  (auth_scan_exact (by decide) _).1.mpr ⟨_, mem_singleton_self _, by
    simp only [AuthFailureSignature.Met]
    decide⟩

end AuthFailureScan
end MacWorker.Agent
