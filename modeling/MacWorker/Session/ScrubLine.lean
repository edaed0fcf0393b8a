import MacWorker.Lib.JsonText
import MacWorker.Session.ScrubbedText

/-! # Scrubbing a line of JSON

A session is a file of JSON lines. The scrubber asks the JSON library whether a line is
readable, and then looks for the strings in it by itself: a quote opens one, and the next
quote without a backslash closes it. A string that a colon follows is a name and stays.
Any other one is decoded, scrubbed, and written anew when something was removed.

The scan agrees with the grammar of JSON: the line it writes is the same document with the
same blanks, names and numbers, and with the strings scrubbed. -/
namespace MacWorker.Session
open JsonText List
open Scrubber (new)

/-! ## The line -/

/-- What is taken from the JSON library: whether it reads a line, which numbers it can
hold, the text of a string literal, and the literal of a text. -/
structure SerdeJson where
  accepts : List UInt8 → Bool
  holds : Number → Bool
  decode : List UInt8 → Option (List UInt8)
  encode : List UInt8 → List UInt8

/-- An index past the end of the line, or an error that is returned. -/
inductive LineFailure where
  | panicked
  | failed (error : WorkerError)

def unreadable : LineFailure :=
  .failed (.task "SESSION_UNREADABLE" "session line is not valid JSON")

structure ScrubbedLine where
  bytes : List UInt8
  replacements : Nat

def ScrubbedLine.after (line : ScrubbedLine) (written : List UInt8) (count : Nat) : ScrubbedLine :=
  ⟨written ++ line.bytes, count + line.replacements⟩

def nextByte (behind : List UInt8) : Option UInt8 := (behind.dropWhile isAsciiWhitespace).head?

section
variable (serde : SerdeJson) (scrubber : Scrubber)

/-- What is written for a string literal, given the line behind it. -/
def Scrubber.scrubLiteral (literal behind : List UInt8) : Except LineFailure (List UInt8 × Nat) :=
  if nextByte behind = some 58 then .ok (literal, 0)
  else
    match serde.decode literal with
    | none => .error unreadable
    | some value =>
      let scrubbed := scrubber.scrubText value
      if scrubbed.2 = 0 then .ok (literal, 0)
      else if Utf8.Valid scrubbed.1 then .ok (serde.encode scrubbed.1, scrubbed.2)
      else .error unreadable

/-- The scan of a line, of which some bytes are still skipped. -/
def Scrubber.scrubFrom : Nat → List UInt8 → Except LineFailure ScrubbedLine
  | _, [] => .ok ⟨[], 0⟩
  | skip + 1, _ :: rest => scrubFrom skip rest
  | 0, b :: rest =>
    if b ≠ 34 then (scrubFrom 0 rest).map (·.after [b] 0)
    else
      match rawString false rest with
      | none => .error .panicked
      | some raw =>
        match scrubber.scrubLiteral serde (34 :: (raw ++ [34])) (rest.drop (raw.length + 1)) with
        | .error e => .error e
        | .ok (written, count) => (scrubFrom (raw.length + 1) rest).map (·.after written count)

def Scrubber.scrubLine (line : List UInt8) : Except LineFailure ScrubbedLine :=
  if serde.accepts line then scrubber.scrubFrom serde 0 line else .error unreadable

end

/-! ## What the JSON library does -/

/-- Arrays and objects are read to this depth, less one. -/
def recursionLimit : Nat := 128

def SerdeJson.Reads (serde : SerdeJson) : Leaf → Prop
  | .number n => serde.holds n = true
  | .name s | .string s => (serde.decode s.text).isSome = true

/-- A document the library reads: not too deep, with numbers it can hold, and with escapes
that stand for characters. -/
structure Readable (serde : SerdeJson) (d : Document) : Prop where
  depth : d.node.depth < recursionLimit
  leaves : ∀ leaf ∈ d.node.leaves, serde.Reads leaf

/-- The library reads lines, and decodes and encodes strings, as it says. -/
structure SerdeJson.Correct (serde : SerdeJson) : Prop where
  accepts : ∀ line, serde.accepts line = true ↔ ∃ d : Document, d.render = line ∧ Readable serde d
  decode : ∀ literal value, serde.decode literal = some value → Utf8.Valid value
  encode : ∀ value, Utf8.Valid value →
    ∃ s : Literal, s.text = serde.encode value ∧ serde.decode s.text = some value

/-! ## The scrubbed document -/

section
variable (serde : SerdeJson) (scrubber : Scrubber)

/-- A string value and what is written for it: the same literal, or one for the scrubbed
text. -/
def ScrubbedString (s s' : Literal) (count : Nat) : Prop :=
  ∃ value, serde.decode s.text = some value ∧ count = (scrubber.scrubText value).2 ∧
    if count = 0 then s' = s else serde.decode s'.text = some (scrubber.scrubText value).1

mutual

/-- Two values that are written the same but for their string values, which are scrubbed,
and how much was replaced in all of them. -/
inductive ScrubbedNode : Node → Node → Nat → Prop
  | word (w : Word) : ScrubbedNode (.word w) (.word w) 0
  | number (n : Number) : ScrubbedNode (.number n) (.number n) 0
  | string {s s' : Literal} {count : Nat} : ScrubbedString serde scrubber s s' count →
      ScrubbedNode (.string s) (.string s') count
  | emptyArray (blank : Blank) : ScrubbedNode (.emptyArray blank) (.emptyArray blank) 0
  | array {items items' : Items} {count : Nat} : ScrubbedItems items items' count →
      ScrubbedNode (.array items) (.array items') count
  | emptyObject (blank : Blank) : ScrubbedNode (.emptyObject blank) (.emptyObject blank) 0
  | object {members members' : Members} {count : Nat} : ScrubbedMembers members members' count →
      ScrubbedNode (.object members) (.object members') count

inductive ScrubbedItems : Items → Items → Nat → Prop
  | last {node node' : Node} {count : Nat} (before after : Blank) : ScrubbedNode node node' count →
      ScrubbedItems (.last before node after) (.last before node' after) count
  | more {node node' : Node} {rest rest' : Items} {count more : Nat} (before after : Blank) :
      ScrubbedNode node node' count → ScrubbedItems rest rest' more →
      ScrubbedItems (.more before node after rest) (.more before node' after rest') (count + more)

inductive ScrubbedMembers : Members → Members → Nat → Prop
  | last {node node' : Node} {count : Nat} (key : Key) (before after : Blank) :
      ScrubbedNode node node' count →
      ScrubbedMembers (.last key before node after) (.last key before node' after) count
  | more {node node' : Node} {rest rest' : Members} {count more : Nat} (key : Key)
      (before after : Blank) : ScrubbedNode node node' count → ScrubbedMembers rest rest' more →
      ScrubbedMembers (.more key before node after rest) (.more key before node' after rest')
        (count + more)

end

structure ScrubbedDocument (d d' : Document) (count : Nat) : Prop where
  before : d'.before = d.before
  after : d'.after = d.after
  node : ScrubbedNode serde scrubber d.node d'.node count

end

/-! ## The scan of a document -/

/-- A text goes through the scan of a line, which writes another one for it. -/
def Passes (serde : SerdeJson) (scrubber : Scrubber) (text written : List UInt8) (count : Nat)
    (behind : List UInt8) : Prop :=
  scrubber.scrubFrom serde 0 (text ++ behind) =
    (scrubber.scrubFrom serde 0 behind).map (·.after written count)

section
variable {serde : SerdeJson} {scrubber : Scrubber}

theorem scrubFrom_skip (skip : Nat) (rest : List UInt8) :
    scrubber.scrubFrom serde skip rest = scrubber.scrubFrom serde 0 (rest.drop skip) := by
  induction rest generalizing skip with
  | nil =>
    rw [drop_nil]
    cases skip <;> rfl
  | cons b rest ih =>
    cases skip with
    | zero => rfl
    | succ skip => exact ih skip

theorem map_after (result : Except LineFailure ScrubbedLine) (a b : List UInt8) (m n : Nat) :
    (result.map (·.after b n)).map (·.after a m) = result.map (·.after (a ++ b) (m + n)) := by
  cases result with
  | error e => rfl
  | ok line => simp [Except.map, ScrubbedLine.after, Nat.add_assoc]

theorem map_after_nil (result : Except LineFailure ScrubbedLine) :
    result.map (·.after [] 0) = result := by
  cases result with
  | error e => rfl
  | ok line => simp [Except.map, ScrubbedLine.after]

theorem Passes.append {text written text' written' behind m n}
    (h : Passes serde scrubber text written m (text' ++ behind))
    (h' : Passes serde scrubber text' written' n behind) :
    Passes serde scrubber (text ++ text') (written ++ written') (m + n) behind := by
  unfold Passes at *
  rw [append_assoc, h, h', map_after]

theorem passes_plain {text} (h : 34 ∉ text) (behind : List UInt8) :
    Passes serde scrubber text text 0 behind := by
  induction text with
  | nil => exact (map_after_nil _).symm
  | cons b text ih =>
    have hh : Passes serde scrubber [b] [b] 0 (text ++ behind) := by
      unfold Passes
      change scrubber.scrubFrom serde 0 (b :: (text ++ behind)) = _
      have hb : b ≠ 34 := fun hb => h (hb ▸ mem_cons_self)
      rw [Scrubber.scrubFrom, if_pos hb]
    exact hh.append (ih fun hin => h (mem_cons_of_mem _ hin))

/-- A string goes through the scan with what is written for it. -/
theorem passes_literal (s : Literal) {written count behind}
    (h : scrubber.scrubLiteral serde s.text behind = .ok (written, count)) :
    Passes serde scrubber s.text written count behind := by
  have ht : s.text ++ behind = 34 :: (s.raw ++ 34 :: behind) := by simp [Literal.text]
  have hb : (s.raw ++ 34 :: behind).drop (s.raw.length + 1) = behind := by
    rw [← drop_drop, List.drop_left]
    rfl
  unfold Passes
  rw [ht, Scrubber.scrubFrom, if_neg (by simp), rawString_chars s.chars]
  dsimp only
  rw [hb]
  rw [Literal.text] at h
  rw [h]
  dsimp only
  rw [scrubFrom_skip, hb]

theorem passes_name (s : Literal) {behind} (h : nextByte behind = some 58) :
    Passes serde scrubber s.text s.text 0 behind :=
  passes_literal s (if_pos h)

theorem blank_whitespace (blank : Blank) : ∀ b ∈ blank.text, isAsciiWhitespace b = true := by
  intro b hb
  have hbl := blank.blank b hb
  simp only [isBlank, Bool.or_eq_true] at hbl
  unfold isAsciiWhitespace
  rcases hbl with ((h | h) | h) | h <;> simp [h]

theorem nextByte_blank (blank : Blank) (rest : List UInt8) :
    nextByte (blank.text ++ rest) = nextByte rest := by
  unfold nextByte
  rw [dropWhile_append_of_pos (blank_whitespace blank)]

theorem passes_key (k : Key) (behind : List UInt8) :
    Passes serde scrubber (k.text ++ [58]) (k.text ++ [58]) 0 behind := by
  have hn : Passes serde scrubber k.name.text k.name.text 0 (k.after.text ++ [58] ++ behind) := by
    refine passes_name _ ?_
    rw [append_assoc, nextByte_blank]
    rfl
  have ha : Passes serde scrubber (k.after.text ++ [58]) (k.after.text ++ [58]) 0 behind :=
    passes_plain (by simpa using k.after.no_quote) _
  have hal := ((passes_plain k.before.no_quote _).append hn).append ha
  simpa [Key.text] using hal

theorem passes_padded {node node' : Node} {count : Nat} (h : ∀ behind, nextByte behind ≠ some 58 →
      Passes serde scrubber node.render node'.render count behind)
    (before after : Blank) {b : UInt8} (hs : isAsciiWhitespace b = false) (hc : b ≠ 58)
    (hq : b ≠ 34) (behind : List UInt8) :
    Passes serde scrubber (before.text ++ (node.render ++ (after.text ++ [b])))
      (before.text ++ (node'.render ++ (after.text ++ [b]))) count behind := by
  have hno : Passes serde scrubber node.render node'.render count
      (after.text ++ [b] ++ behind) := by
    refine h _ fun hn => hc ?_
    rw [append_assoc, nextByte_blank, nextByte, singleton_append,
      dropWhile_cons_of_neg (by simp [hs])] at hn
    exact Option.some.inj hn
  have ha : Passes serde scrubber (after.text ++ [b]) (after.text ++ [b]) 0 behind :=
    passes_plain (by simpa [hq.symm] using after.no_quote) _
  have hal := (passes_plain before.no_quote _).append (hno.append ha)
  rwa [Nat.zero_add, Nat.add_zero] at hal

theorem Passes.cons {b text written behind count} (hb : b ≠ 34)
    (h : Passes serde scrubber text written count behind) :
    Passes serde scrubber (b :: text) (b :: written) count behind := by
  have hby : 34 ∉ [b] := by simpa using hb.symm
  have ha := (passes_plain hby (text ++ behind)).append h
  rwa [Nat.zero_add] at ha

variable {secrets : List (List UInt8)}

theorem passes_string (hs : serde.Correct) (hse : ∀ secret ∈ secrets, Utf8.Valid secret)
    (s : Literal) (h : (serde.decode s.text).isSome = true) :
    ∃ s' count, ScrubbedString serde (new secrets) s s' count ∧
      ∀ behind, nextByte behind ≠ some 58 →
        Passes serde (new secrets) s.text s'.text count behind := by
  obtain ⟨value, hv⟩ := Option.isSome_iff_exists.mp h
  have hva := scrubText_valid hse (hs.decode _ _ hv)
  by_cases hc : ((new secrets).scrubText value).2 = 0
  · refine ⟨s, 0, ⟨value, hv, hc.symm, rfl⟩, fun behind hb => passes_literal s ?_⟩
    unfold Scrubber.scrubLiteral
    rw [if_neg hb, hv]
    exact if_pos hc
  · obtain ⟨s', hs', hd⟩ := hs.encode _ hva
    refine ⟨s', _, ⟨value, hv, rfl, ?_⟩, fun behind hb => passes_literal s ?_⟩
    · rwa [if_neg hc]
    · unfold Scrubber.scrubLiteral
      rw [if_neg hb, hv]
      dsimp only
      rw [if_neg hc, if_pos hva, hs']

mutual

/-- **The scan of a value** writes the scrubbed value, when no colon follows. -/
theorem passes_node (hs : serde.Correct) (hse : ∀ secret ∈ secrets, Utf8.Valid secret) :
    (node : Node) → (∀ leaf ∈ node.leaves, serde.Reads leaf) →
    ∃ node' count, ScrubbedNode serde (new secrets) node node' count ∧
      ∀ behind, nextByte behind ≠ some 58 →
        Passes serde (new secrets) node.render node'.render count behind
  | .word w, _ => ⟨.word w, 0, .word w, fun behind _ => passes_plain w.no_quote behind⟩
  | .number n, _ => ⟨.number n, 0, .number n, fun behind _ => passes_plain n.no_quote behind⟩
  | .string s, h => by
    obtain ⟨s', count, hs', hp⟩ := passes_string hs hse s (h (.string s) mem_cons_self)
    exact ⟨.string s', count, .string hs', hp⟩
  | .emptyArray blank, _ =>
    ⟨.emptyArray blank, 0, .emptyArray blank, fun behind _ =>
      passes_plain (by simpa [Node.render] using blank.no_quote) behind⟩
  | .emptyObject blank, _ =>
    ⟨.emptyObject blank, 0, .emptyObject blank, fun behind _ =>
      passes_plain (by simpa [Node.render] using blank.no_quote) behind⟩
  | .array items, h => by
    obtain ⟨items', count, hi', hp⟩ := passes_items hs hse items h
    exact ⟨.array items', count, .array hi', fun behind _ =>
      (hp behind).cons (by decide)⟩
  | .object members, h => by
    obtain ⟨members', count, hm', hp⟩ := passes_members hs hse members h
    exact ⟨.object members', count, .object hm', fun behind _ =>
      (hp behind).cons (by decide)⟩

theorem passes_items (hs : serde.Correct) (hse : ∀ secret ∈ secrets, Utf8.Valid secret) :
    (items : Items) → (∀ leaf ∈ items.leaves, serde.Reads leaf) →
    ∃ items' count, ScrubbedItems serde (new secrets) items items' count ∧
      ∀ behind, Passes serde (new secrets) items.render items'.render count behind
  | .last before node after, h => by
    obtain ⟨node', count, hn', hp⟩ := passes_node hs hse node h
    exact ⟨.last before node' after, count, .last before after hn', fun behind =>
      passes_padded hp before after (by decide) (by decide) (by decide) behind⟩
  | .more before node after rest, h => by
    obtain ⟨node', count, hn', hp⟩ := passes_node hs hse node fun leaf hl =>
      h leaf (mem_append_left _ hl)
    obtain ⟨rest', more, hr', hr⟩ := passes_items hs hse rest fun leaf hl =>
      h leaf (mem_append_right _ hl)
    refine ⟨.more before node' after rest', count + more, .more before after hn' hr',
      fun behind => ?_⟩
    have ha := (passes_padded hp before after (b := 44) (by decide) (by decide) (by decide)
      (rest.render ++ behind)).append (hr behind)
    simpa [Items.render] using ha

theorem passes_members (hs : serde.Correct) (hse : ∀ secret ∈ secrets, Utf8.Valid secret) :
    (members : Members) → (∀ leaf ∈ members.leaves, serde.Reads leaf) →
    ∃ members' count, ScrubbedMembers serde (new secrets) members members' count ∧
      ∀ behind, Passes serde (new secrets) members.render members'.render count behind
  | .last key before node after, h => by
    obtain ⟨node', count, hn', hp⟩ := passes_node hs hse node fun leaf hl =>
      h leaf (mem_cons_of_mem _ hl)
    refine ⟨.last key before node' after, count, .last key before after hn', fun behind => ?_⟩
    have ha := (passes_key key _).append
      (passes_padded hp before after (b := 125) (by decide) (by decide) (by decide) behind)
    simpa [Members.render] using ha
  | .more key before node after rest, h => by
    obtain ⟨node', count, hn', hp⟩ := passes_node hs hse node fun leaf hl =>
      h leaf (mem_cons_of_mem _ (mem_append_left _ hl))
    obtain ⟨rest', more, hr', hr⟩ := passes_members hs hse rest fun leaf hl =>
      h leaf (mem_cons_of_mem _ (mem_append_right _ hl))
    refine ⟨.more key before node' after rest', count + more,
      .more key before after hn' hr', fun behind => ?_⟩
    have ha := (passes_key key _).append ((passes_padded hp before after (b := 44) (by decide)
      (by decide) (by decide) (rest.render ++ behind)).append (hr behind))
    simpa [Members.render] using ha

end

end

/-- **Scrubbing keeps the document**: of a line the JSON library reads, the same document
is written, with the same blanks, names, numbers and words, and with every string value
scrubbed. -/
theorem scrubLine_document {serde : SerdeJson} (hserde : serde.Correct)
    {secrets : List (List UInt8)} (hsecrets : ∀ secret ∈ secrets, Utf8.Valid secret)
    (d : Document) (hd : Readable serde d) :
    ∃ d' count, (new secrets).scrubLine serde d.render = .ok ⟨d'.render, count⟩ ∧
      ScrubbedDocument serde (new secrets) d d' count := by
  obtain ⟨node', count, hn', hp⟩ := passes_node hserde hsecrets d.node hd.leaves
  refine ⟨⟨d.before, node', d.after⟩, count, ?_, rfl, rfl, hn'⟩
  have ha : Passes serde (new secrets) d.after.text d.after.text 0 [] :=
    passes_plain d.after.no_quote []
  have hn : Passes serde (new secrets) d.node.render node'.render count
      (d.after.text ++ []) := by
    refine hp _ ?_
    rw [nextByte_blank]
    exact nofun
  have hal := (passes_plain d.before.no_quote _).append (hn.append ha)
  have hac := (hserde.accepts d.render).mpr ⟨d, rfl, hd⟩
  unfold Scrubber.scrubLine
  rw [if_pos hac]
  unfold Passes at hal
  rw [append_nil] at hal
  rw [Document.render, hal]
  simp [Scrubber.scrubFrom, Except.map, ScrubbedLine.after, Document.render]

/-! ## A library with the escapes of serde_json -/

def hexDigits : List UInt8 := bytes "0123456789abcdef"

/-- The quote, the backslash, and the control characters that have a letter. -/
def letterEscapes : List (UInt8 × UInt8) :=
  [(34, 34), (92, 92), (8, 98), (9, 116), (10, 110), (12, 102), (13, 114)]

def escapeByte (b : UInt8) : List UInt8 :=
  match letterEscapes.lookup b with
  | some letter => [92, letter]
  | none =>
    if b < 32 then
      [92, 117, 48, 48, hexDigits.getD (b.toNat / 16) 48, hexDigits.getD (b.toNat % 16) 48]
    else [b]

def unescape : List UInt8 → List UInt8
  | 92 :: 117 :: 48 :: 48 :: high :: low :: rest =>
    UInt8.ofNat (16 * hexDigits.idxOf high + hexDigits.idxOf low) :: unescape rest
  | 92 :: letter :: rest =>
    (letterEscapes.find? (·.2 == letter)).elim letter Prod.fst :: unescape rest
  | b :: rest => b :: unescape rest
  | [] => []

theorem mem_letterEscapes {b letter} (h : letterEscapes.lookup b = some letter) :
    (b, letter) ∈ letterEscapes := by
  obtain ⟨_, _, hl, -⟩ := lookup_eq_some_iff.mp h
  simp [hl]

theorem ne_of_no_letter {b} (h : letterEscapes.lookup b = none) : b ≠ 34 ∧ b ≠ 92 := by
  constructor
  · rintro rfl
    cases h
  · rintro rfl
    cases h

theorem unescape_escapeByte (b : UInt8) (rest : List UInt8) :
    unescape (escapeByte b ++ rest) = b :: unescape rest := by
  have hd : ∀ n < 16, hexDigits.idxOf (hexDigits.getD n 48) = n := by decide
  unfold escapeByte
  split
  · rename_i letter hl
    have hm := mem_letterEscapes hl
    simp only [letterEscapes, mem_cons, Prod.mk.injEq, not_mem_nil, or_false] at hm
    rcases hm with ⟨rfl, rfl⟩ | ⟨rfl, rfl⟩ | ⟨rfl, rfl⟩ | ⟨rfl, rfl⟩ | ⟨rfl, rfl⟩ | ⟨rfl, rfl⟩ |
      ⟨rfl, rfl⟩ <;> rfl
  · rename_i hl
    split
    · rename_i hb
      have hlt : b.toNat < 32 := hb
      change UInt8.ofNat (16 * hexDigits.idxOf (hexDigits.getD (b.toNat / 16) 48) +
        hexDigits.idxOf (hexDigits.getD (b.toNat % 16) 48)) :: unescape rest = _
      rw [hd _ (by omega), hd _ (by omega), Nat.div_add_mod, UInt8.ofNat_toNat]
    · rw [singleton_append, unescape]
      · exact fun _ _ _ h _ => (ne_of_no_letter hl).2 h
      · exact fun _ _ h _ => (ne_of_no_letter hl).2 h

variable (value : List UInt8)

theorem unescape_escape : unescape (value.flatMap escapeByte) = value := by
  induction value with
  | nil => rfl
  | cons b value ih => rw [flatMap_cons, unescape_escapeByte, ih]

theorem chars_escape : Chars (value.flatMap escapeByte) := by
  have hd : ∀ n < 16, isHexDigit (hexDigits.getD n 48) = true := by decide
  have hle : ∀ p ∈ letterEscapes, p.2 ∈ [34, 92, 47, 98, 102, 110, 114, 116] := by
    simp [letterEscapes]
  induction value with
  | nil => exact .nil
  | cons b value ih =>
    rw [flatMap_cons, escapeByte]
    split
    · rename_i letter hl
      exact .escape (hle _ (mem_letterEscapes hl)) ih
    · rename_i hl
      split
      · rename_i hb
        have hlt : b.toNat < 32 := hb
        exact .unicode (by decide) (by decide) (hd _ (by omega)) (hd _ (by omega)) ih
      · rename_i hb
        exact .plain (UInt8.not_lt.mp hb) (ne_of_no_letter hl).1 (ne_of_no_letter hl).2 ih

theorem valid_escape {value} (h : Utf8.Valid value) : Utf8.Valid (value.flatMap escapeByte) := by
  have has : ∀ n < 128, (escapeByte (.ofNat n)).all (· < 128) = true := by decide +kernel
  suffices ha : ∀ front : List UInt8, Utf8.Valid (front ++ value) →
      Utf8.Valid (front ++ value.flatMap escapeByte) from ha [] h
  clear h
  induction value with
  | nil => exact fun front h => h
  | cons b value ih =>
    intro front h
    rw [flatMap_cons]
    by_cases hb : b < 128
    · obtain ⟨hf, hr⟩ := h.cut fun c hc => by cases hc; exact Utf8.first_of_ascii hb
      have hbe := ih [] ((Utf8.valid_ascii_byte hb).drop_left hr)
      have hac := has b.toNat hb
      rw [UInt8.ofNat_toNat] at hac
      exact hf.append ((Utf8.valid_ascii (by simpa using hac)).append hbe)
    · have hp : escapeByte b = [b] := by
        unfold escapeByte
        split
        · rename_i letter hl
          have hle : ∀ p ∈ letterEscapes, p.1 < 128 := by simp [letterEscapes]
          exact absurd (hle _ (mem_letterEscapes hl)) hb
        · rw [if_neg fun hlt => hb (UInt8.lt_trans hlt (by decide))]
      rw [hp, ← append_assoc]
      exact ih _ (by simpa using h)

def decodeEscapes (literal : List UInt8) : Option (List UInt8) :=
  let value := unescape (literal.drop 1).dropLast
  if Utf8.Valid value then some value else none

def encodeEscapes : List UInt8 := 34 :: (value.flatMap escapeByte ++ [34])

open Classical in
/-- A library that holds every number, and accepts what it reads. -/
noncomputable def escaping : SerdeJson where
  accepts line := decide (∃ d : Document, d.render = line ∧
    Readable ⟨fun _ => true, fun _ => true, decodeEscapes, encodeEscapes⟩ d)
  holds _ := true
  decode := decodeEscapes
  encode := encodeEscapes

def escaped (h : Utf8.Valid value) : Literal :=
  ⟨value.flatMap escapeByte, chars_escape value, valid_escape h⟩

theorem decode_escaped (h : Utf8.Valid value) :
    decodeEscapes (escaped value h).text = some value := by
  change decodeEscapes (34 :: (value.flatMap escapeByte ++ [34])) = _
  unfold decodeEscapes
  rw [drop_one, tail_cons, dropLast_concat, unescape_escape, if_pos h]

theorem escaping_correct : escaping.Correct where
  accepts line := by
    have hr : ∀ d : Document, Readable escaping d ↔
        Readable ⟨fun _ => true, fun _ => true, decodeEscapes, encodeEscapes⟩ d := fun d =>
      ⟨fun h => ⟨h.depth, fun leaf hl => by cases leaf <;> exact h.leaves _ hl⟩,
        fun h => ⟨h.depth, fun leaf hl => by cases leaf <;> exact h.leaves _ hl⟩⟩
    simp only [hr]
    exact @decide_eq_true_iff _ (Classical.propDecidable _)
  decode literal value h := by
    change (if _ then _ else _) = _ at h
    split at h
    · cases h
      assumption
    · cases h
  encode value h := ⟨escaped value h, rfl, decode_escaped value h⟩

def noBlank : Blank := ⟨[], nofun⟩

/-- An object with one member, whose value is a key. -/
def keyLine : Document :=
  let name := escaped (bytes "note") (Utf8.valid_ascii (ascii_of_isAscii (by decide)))
  let value := escaped (bytes "sk-aaaaaaaaaaaaaaaaaaaa")
    (Utf8.valid_ascii (ascii_of_isAscii (by decide)))
  ⟨noBlank, .object (.last ⟨noBlank, name, noBlank⟩ noBlank (.string value) noBlank), noBlank⟩

theorem keyLine_readable : Readable escaping keyLine := by
  refine ⟨by decide, fun leaf hl => ?_⟩
  simp only [keyLine, Node.leaves, Members.leaves, mem_cons, not_mem_nil, or_false] at hl
  have hr : ∀ value h, (escaping.decode (escaped value h).text).isSome = true := by
    intro value h
    change (decodeEscapes (escaped value h).text).isSome = true
    rw [decode_escaped]
    rfl
  rcases hl with rfl | rfl
  · exact hr _ _
  · exact hr _ _

theorem scrubLine_document_key : escaping.Correct ∧ Readable escaping keyLine ∧
    ∃ d' count, (new []).scrubLine escaping keyLine.render = .ok ⟨d'.render, count⟩ ∧
      ScrubbedDocument escaping (new []) keyLine d' count :=
  ⟨escaping_correct, keyLine_readable,
    scrubLine_document escaping_correct (fun _ h => absurd h not_mem_nil) keyLine keyLine_readable⟩

/-! ## Lines that are too deep -/

def nested : Nat → Node
  | 0 => .emptyArray noBlank
  | n + 1 => .array (.last noBlank (nested n) noBlank)

theorem render_nested (n : Nat) :
    (nested n).render = List.replicate (n + 1) 91 ++ List.replicate (n + 1) 93 := by
  induction n with
  | zero => rfl
  | succ n ih =>
    change 91 :: ((nested n).render ++ [93]) = _
    rw [ih, append_assoc, ← replicate_succ', replicate_succ]
    rfl

/-- A document with as many arrays in one another as the library has levels is valid JSON,
and no library that keeps to its limit reads it. -/
theorem deep_line_unreadable : (∃ serde : SerdeJson, serde.Correct) ∧
    ∃ d : Document, ∀ (serde : SerdeJson) (secrets : List (List UInt8)), serde.Correct →
      (new secrets).scrubLine serde d.render = .error unreadable := by
  refine ⟨⟨escaping, escaping_correct⟩, ⟨noBlank, nested 127, noBlank⟩, fun serde secrets h => ?_⟩
  refine if_neg fun ha => ?_
  obtain ⟨d, hr, hre⟩ := (h.accepts _).mp ha
  have hs : List.replicate 128 91 <+: d.before.text ++ (d.node.render ++ d.after.text) := by
    change List.replicate 128 91 <+: d.render
    rw [hr]
    change List.replicate 128 91 <+: (nested 127).render ++ []
    rw [render_nested, append_nil]
    exact prefix_append _ _
  have hd : 128 ≤ d.node.depth := by
    rcases d.before.replicate_behind hs with hz | hs
    · cases hz
    · exact d.node.replicate_le_depth hs
  have hl : d.node.depth < 128 := hre.depth
  omega

end MacWorker.Session
