import MacWorker.Lib.Utf8
import MacWorker.Session.Recognised

/-! # Scrubbed texts are UTF-8

Texts are cut only where characters begin: an exact secret is a text itself, a block of a
private key begins and ends with dashes, and a token is ASCII. -/
namespace MacWorker.Session
open Splice List

section
variable {secrets : List (List UInt8)} {input : List UInt8}

theorem ascii_of_alphanumeric {b} (h : isAsciiAlphanumeric b = true) : b < 128 := by
  simp only [isAsciiAlphanumeric, isAsciiLowercase, isAsciiUppercase, isAsciiDigit, Bool.or_eq_true,
    Bool.and_eq_true, decide_eq_true_eq] at h
  rcases h with (h | h) | h
  · exact UInt8.lt_of_le_of_lt h.2 (by decide)
  · exact UInt8.lt_of_le_of_lt h.2 (by decide)
  · exact UInt8.lt_of_le_of_lt h.2 (by decide)

theorem ascii_of_word {b} (h : isWord b = true) : b < 128 := by
  rcases Bool.or_eq_true_iff.mp h with h | h
  · exact ascii_of_alphanumeric h
  · rw [eq_of_beq h]
    decide

def isAscii (word : String) : Bool := (bytes word).all (· < 128)

theorem ascii_of_isAscii {word} (h : isAscii word = true) : ∀ b ∈ bytes word, b < 128 :=
  fun b hb => of_decide_eq_true (all_eq_true.mp h b hb)

theorem ascii_of_contains {word} (hw : isAscii word = true) {b}
    (h : (bytes word).contains b = true) :
    b < 128 :=
  ascii_of_isAscii hw b (contains_iff_mem.mp h)

theorem ascii_of_start {word n} (h : (bytes word).isPrefixOf input = true)
    (hn : (bytes word).length = n) (hw : isAscii word = true) :
    ∀ b ∈ input.take n, b < 128 := by
  rw [← hn, ← prefix_iff_eq_take.mp (List.isPrefixOf_iff_prefix.mp h)]
  exact ascii_of_isAscii hw

theorem ascii_take_succ {n} (h : ∀ b ∈ input.take n, b < 128) (hn : ∀ b ∈ input[n]?, b < 128) :
    ∀ b ∈ input.take (n + 1), b < 128 := by
  intro b hb
  rw [take_add_one] at hb
  rcases mem_append.mp hb with hb | hb
  · exact h b hb
  · exact hn b (by simpa using hb)

theorem TokenPattern.span_ascii {p : TokenPattern} (ha : ∀ b, p.allowed b = true → b < 128)
    (hl : ∀ b ∈ input.take p.lead, b < 128) : ∀ b ∈ input.take (p.span input).1, b < 128 := by
  unfold TokenPattern.span
  dsimp only
  split
  · intro b hb
    rw [take_add] at hb
    rcases mem_append.mp hb with hb | hb
    · exact hl b hb
    · rw [← prefix_iff_eq_take.mp (List.takeWhile_prefix _)] at hb
      exact ha b (all_eq_true.mp all_takeWhile b hb)
  · exact nofun

theorem akiaSpan_ascii (hl : ∀ b ∈ input.take 4, b < 128) :
    ∀ b ∈ input.take (akiaSpan input).1, b < 128 := by
  unfold akiaSpan
  split
  · rename_i ha
    intro b hb
    change b ∈ input.take (4 + 16) at hb
    rw [take_add] at hb
    rcases mem_append.mp hb with hb | hb
    · exact hl b hb
    · refine ascii_of_alphanumeric ?_
      have hb' := all_eq_true.mp (Bool.and_eq_true_iff.mp ha).1 b hb
      unfold isAsciiAlphanumeric
      rcases Bool.or_eq_true_iff.mp hb' with hb' | hb' <;> simp [hb']
  · exact nofun

/-- **A token is ASCII.** -/
theorem tokenSpan_ascii (input : List UInt8) : ∀ b ∈ input.take (tokenSpan input).1, b < 128 := by
  have hd : ∀ b : UInt8, (b == 45) = true → b < 128 := by
    intro b h
    rw [eq_of_beq h]
    decide
  have hk : ∀ b, isKeyByte b = true → b < 128 := fun b h =>
    (Bool.or_eq_true_iff.mp h).elim ascii_of_word (hd b)
  have hs : ∀ b, isSlackByte b = true → b < 128 := fun b h =>
    (Bool.or_eq_true_iff.mp h).elim ascii_of_alphanumeric (hd b)
  have hbe : ∀ b, isBearerByte b = true → b < 128 := fun b h =>
    (Bool.or_eq_true_iff.mp h).elim ascii_of_alphanumeric (ascii_of_contains (by decide))
  -- A byte out of a list, and the one that ends the beginning of a token.
  have hn : ∀ {n : Nat} {choices : String} {last : UInt8}, isAscii choices = true →
      last < 128 → (∀ b ∈ input.take n, b < 128) → input[n]?.any (bytes choices).contains = true →
      (input[n + 1]? == some last) = true → ∀ b ∈ input.take (n + 2), b < 128 := by
    intro n choices last hc hl hle ha hen
    refine ascii_take_succ (ascii_take_succ hle fun b hb => ?_) fun b hb => ?_
    · rw [Option.mem_def.mp hb] at ha
      exact ascii_of_contains hc ha
    · rw [eq_of_beq hen] at hb
      cases hb
      exact hl
  unfold tokenSpan
  split
  · rename_i h
    exact TokenPattern.span_ascii hbe (ascii_of_start h rfl (by decide))
  split
  · rename_i h
    exact TokenPattern.span_ascii hk (ascii_of_start h rfl (by decide))
  split
  · rename_i h
    exact TokenPattern.span_ascii hk (ascii_of_start h rfl (by decide))
  split
  · rename_i h
    exact TokenPattern.span_ascii (fun _ => ascii_of_word) (ascii_of_start h rfl (by decide))
  split
  · rename_i h
    simp only [Bool.and_eq_true] at h
    exact TokenPattern.span_ascii (fun _ => ascii_of_alphanumeric)
      (hn (by decide) (by decide) (ascii_of_start h.1.1.2 rfl (by decide)) h.1.2 h.2)
  split
  · rename_i h
    simp only [Bool.and_eq_true] at h
    exact TokenPattern.span_ascii hs
      (hn (by decide) (by decide) (ascii_of_start h.1.1.2 rfl (by decide)) h.1.2 h.2)
  split
  · rename_i h
    exact akiaSpan_ascii (ascii_of_start (Bool.and_eq_true_iff.mp h).1 rfl (by decide))
  · exact nofun

theorem BlockIn.dashes {i n} (h : BlockIn input (delimiters input) i n) :
    input[i]? = some 45 ∧ input[i + n - 1]? = some 45 := by
  obtain ⟨before, d, middle, e, after, hds, -, -, -, -, -, rfl, hn⟩ := h
  have hd : d ∈ delimiters input := by simp [hds]
  have he : e ∈ delimiters input := by simp [hds]
  rw [hn]
  exact ⟨(delimiters_within hd).first, (delimiters_within he).last⟩

/-- A text may be cut where a secret begins, behind what is kept of it, and behind it. -/
theorem Recognised.cut (hse : ∀ secret ∈ secrets, Utf8.Valid secret) {i n k}
    (h : Recognised secrets input i n k) {front} (hv : Utf8.Valid (front ++ input.drop i)) :
    Utf8.Valid front ∧ Utf8.Valid ((input.drop i).take k) ∧ Utf8.Valid (input.drop (i + n)) := by
  obtain ⟨hp, hle⟩ := h.bounds
  -- It is enough that the secret is text, or begins and ends with an ASCII byte.
  have hw : ∀ text rest : List UInt8, text ≠ [] → Utf8.Valid text → input.drop i = text ++ rest →
      Utf8.Valid front ∧ Utf8.Valid rest := by
    intro text rest hne ht hd
    rw [hd] at hv
    obtain ⟨hf, hr⟩ := hv.cut fun c hc => by
      rw [head?_append_of_ne_nil _ hne] at hc
      exact ht.first c hc
    exact ⟨hf, ht.drop_left hr⟩
  have hs : input.drop i = (input.drop i).take n ++ input.drop (i + n) := by
    rw [← drop_drop, take_append_drop]
  have hn : (input.drop i).take n ≠ [] := by
    refine ne_nil_of_length_pos ?_
    rw [length_take, length_drop]
    omega
  cases h with
  | @exact secret hin hlo hst =>
    rw [← prefix_iff_eq_take.mp hst] at hs hn
    obtain ⟨hf, hr⟩ := hw _ _ hn (hse secret hin) hs
    exact ⟨hf, Utf8.valid_nil, hr⟩
  | block hbl =>
    obtain ⟨hfi, hl⟩ := hbl.dashes
    have hcu := hv.cut fun c hc => by
      rw [head?_drop, hfi] at hc
      cases hc
      exact Utf8.first_of_ascii (by decide)
    have hen : input.drop i = (input.drop i).take (n - 1) ++ 45 :: input.drop (i + n) := by
      conv_lhs => rw [← take_append_drop (n - 1) (input.drop i)]
      rw [drop_drop, show i + (n - 1) = i + n - 1 by omega]
      obtain ⟨hlt, hg⟩ := List.getElem?_eq_some_iff.mp hl
      rw [drop_eq_getElem_cons hlt, hg, show i + n - 1 + 1 = i + n by omega]
    refine ⟨hcu.1, Utf8.valid_nil, ?_⟩
    have hta := hcu.2
    rw [hen] at hta
    exact hta.cut_after (by decide)
  | token hwo hsp hne =>
    have ha := tokenSpan_ascii (input.drop i)
    have hk := (tokenSpan_bounds (input.drop i)).1
    rw [hsp] at ha hk
    obtain ⟨hf, hr⟩ := hw _ _ hn (Utf8.valid_ascii ha) hs
    exact ⟨hf, Utf8.valid_ascii fun b hb => ha b (take_subset_take_left _ hk hb), hr⟩

theorem placed_bytes (pairs : List (UInt8 × Nat)) :
    (pairs.map fun p => Segment.copied p.2 p.1).flatMap Segment.bytes = pairs.map Prod.fst := by
  rw [flatMap_map, map_eq_flatMap]
  rfl

theorem placed_from {before rest : List Segment} (ht : before.reverse ++ rest = placed input) :
    rest = (input.zipIdx.drop before.length).map fun p => Segment.copied p.2 p.1 := by
  rw [map_drop]
  change rest = (placed input).drop before.length
  rw [← ht, ← length_reverse, List.drop_left]

theorem bytes_from {before rest : List Segment} (ht : before.reverse ++ rest = placed input) :
    rest.flatMap Segment.bytes = input.drop before.length := by
  rw [placed_from ht, placed_bytes, map_drop, zipIdx_map_fst]

/-- **A scrubbed text is UTF-8**: it is cut only where characters begin. -/
theorem segments_valid (hs : ∀ secret ∈ secrets, Utf8.Valid secret) (hin : Utf8.Valid input) :
    Utf8.Valid (((Scrubber.new secrets).segments input).flatMap Segment.bytes) := by
  suffices ha : ∀ before rest, before.reverse ++ rest = placed input → ∀ front : List UInt8,
      Utf8.Valid (front ++ rest.flatMap Segment.bytes) → Utf8.Valid (front ++
        (splice ((Scrubber.new secrets).hit input) before 0 rest).flatMap Segment.bytes) by
    refine ha [] (placed input) rfl [] ?_
    have ha : (placed input).flatMap Segment.bytes = input := @bytes_from input [] _ rfl
    rwa [ha]
  intro before rest ht
  refine scan_induction_on (P := fun before rest => ∀ front : List UInt8,
    Utf8.Valid (front ++ rest.flatMap Segment.bytes) → Utf8.Valid (front ++
      (splice ((Scrubber.new secrets).hit input) before 0 rest).flatMap Segment.bytes))
    (hit_sound secrets input) ?_ ?_ ?_ before rest ht
  · intro before front hv
    rwa [splice_nil]
  · intro before found rest new hne ht hh ih front hv
    obtain ⟨⟨m, keep⟩, hsp, heq⟩ := Option.map_eq_some_iff.mp hh
    cases heq
    rw [bytes_from ht] at hv
    obtain ⟨hf, hk, hr⟩ := (spanAt_recognised hsp).cut hs hv
    have hn : (found.reverse ++ before).reverse ++ rest = placed input := by simpa using ht
    have hb := ih [] (by
      rw [bytes_from hn, length_append, length_reverse, Nat.add_comm]
      exact hr)
    rw [splice_hit hh hne, flatMap_append, flatMap_append]
    refine hf.append (.append (.append ?_ (by decide)) hb)
    rwa [placed_from ht, ← map_take, placed_bytes, map_take, map_drop, zipIdx_map_fst]
  · intro before b rest ht hh ih front hv
    rw [splice_miss hh, flatMap_cons, ← append_assoc]
    refine ih _ ?_
    rwa [append_assoc, ← flatMap_cons]

end

theorem scrubText_valid {secrets value} (hs : ∀ secret ∈ secrets, Utf8.Valid secret)
    (hv : Utf8.Valid value) :
    Utf8.Valid ((Scrubber.new secrets).scrubText value).1 := by
  unfold Scrubber.scrubText
  dsimp only
  split
  · exact Utf8.valid_nil
  · exact segments_valid hs hv

end MacWorker.Session
