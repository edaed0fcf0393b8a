import MacWorker.Lib.Utf8

/-! # JSON documents as they are written

A document here is the text of one JSON value with all it is written with: the blanks, the
escapes of the strings, the digits of the numbers. `render` gives the text back, so a text
is valid JSON when it is the text of some document.

Two facts are what a scanner of such texts needs. A string ends at the first quote that no
backslash stands before (`rawString_chars`), and a text that begins with `n` opening
brackets is nested `n` deep (`replicate_le_depth`). -/
namespace JsonText
open List

def isBlank (b : UInt8) : Bool := b == 32 || b == 9 || b == 10 || b == 13

def isDigit (b : UInt8) : Bool := 48 ≤ b && b ≤ 57

def isHexDigit (b : UInt8) : Bool := isDigit b || (65 ≤ b && b ≤ 70) || (97 ≤ b && b ≤ 102)

structure Blank where
  text : List UInt8
  blank : ∀ b ∈ text, isBlank b = true

structure Digits where
  text : List UInt8
  nonempty : text ≠ []
  digits : ∀ b ∈ text, isDigit b = true

structure Exponent where
  mark : UInt8
  mark_eq : mark = 101 ∨ mark = 69
  sign : List UInt8
  sign_eq : sign = [] ∨ sign = [43] ∨ sign = [45]
  digits : Digits

/-- A number as it is written: no digit stands behind a leading zero. -/
structure Number where
  negative : Bool
  whole : Digits
  leading : whole.text.head? = some 48 → whole.text = [48]
  fraction : Option Digits
  exponent : Option Exponent

def Number.text (n : Number) : List UInt8 :=
  (if n.negative then [45] else []) ++ n.whole.text ++
    (n.fraction.elim [] fun digits => 46 :: digits.text) ++
    n.exponent.elim [] fun e => e.mark :: (e.sign ++ e.digits.text)

/-- What may stand between the quotes of a string. -/
inductive Chars : List UInt8 → Prop
  | nil : Chars []
  | plain {b : UInt8} {rest : List UInt8} :
      32 ≤ b → b ≠ 34 → b ≠ 92 → Chars rest → Chars (b :: rest)
  | escape {b : UInt8} {rest : List UInt8} :
      b ∈ [34, 92, 47, 98, 102, 110, 114, 116] → Chars rest → Chars (92 :: b :: rest)
  | unicode {a b c d : UInt8} {rest : List UInt8} : isHexDigit a = true → isHexDigit b = true →
      isHexDigit c = true → isHexDigit d = true → Chars rest →
      Chars (92 :: 117 :: a :: b :: c :: d :: rest)

structure Literal where
  raw : List UInt8
  chars : Chars raw
  valid : Utf8.Valid raw

def Literal.text (s : Literal) : List UInt8 := 34 :: (s.raw ++ [34])

inductive Word where
  | null
  | true
  | false

def Word.text : Word → List UInt8
  | null => [110, 117, 108, 108]
  | true => [116, 114, 117, 101]
  | false => [102, 97, 108, 115, 101]

/-- The name of a member, with the blanks around it. -/
structure Key where
  before : Blank
  name : Literal
  after : Blank

def Key.text (k : Key) : List UInt8 := k.before.text ++ k.name.text ++ k.after.text

mutual

inductive Node where
  | word (w : Word)
  | number (n : Number)
  | string (s : Literal)
  | emptyArray (blank : Blank)
  | array (items : Items)
  | emptyObject (blank : Blank)
  | object (members : Members)

inductive Items where
  | last (before : Blank) (node : Node) (after : Blank)
  | more (before : Blank) (node : Node) (after : Blank) (rest : Items)

inductive Members where
  | last (key : Key) (before : Blank) (node : Node) (after : Blank)
  | more (key : Key) (before : Blank) (node : Node) (after : Blank) (rest : Members)

end

mutual

def Node.render : Node → List UInt8
  | .word w => w.text
  | .number n => n.text
  | .string s => s.text
  | .emptyArray blank => 91 :: (blank.text ++ [93])
  | .array items => 91 :: items.render
  | .emptyObject blank => 123 :: (blank.text ++ [125])
  | .object members => 123 :: members.render

def Items.render : Items → List UInt8
  | .last before node after => before.text ++ (node.render ++ (after.text ++ [93]))
  | .more before node after rest =>
    before.text ++ (node.render ++ (after.text ++ 44 :: rest.render))

def Members.render : Members → List UInt8
  | .last key before node after =>
    key.text ++ 58 :: (before.text ++ (node.render ++ (after.text ++ [125])))
  | .more key before node after rest =>
    key.text ++ 58 :: (before.text ++ (node.render ++ (after.text ++ 44 :: rest.render)))

end

mutual

def Node.depth : Node → Nat
  | .word _ | .number _ | .string _ => 0
  | .emptyArray _ | .emptyObject _ => 1
  | .array items => items.depth + 1
  | .object members => members.depth + 1

def Items.depth : Items → Nat
  | .last _ node _ => node.depth
  | .more _ node _ rest => max node.depth rest.depth

def Members.depth : Members → Nat
  | .last _ _ node _ => node.depth
  | .more _ _ node _ rest => max node.depth rest.depth

end

inductive Leaf where
  | number (n : Number)
  | name (s : Literal)
  | string (s : Literal)

mutual

/-- The numbers, names and strings of a value, from the left. -/
def Node.leaves : Node → List Leaf
  | .word _ | .emptyArray _ | .emptyObject _ => []
  | .number n => [.number n]
  | .string s => [.string s]
  | .array items => items.leaves
  | .object members => members.leaves

def Items.leaves : Items → List Leaf
  | .last _ node _ => node.leaves
  | .more _ node _ rest => node.leaves ++ rest.leaves

def Members.leaves : Members → List Leaf
  | .last key _ node _ => .name key.name :: node.leaves
  | .more key _ node _ rest => .name key.name :: (node.leaves ++ rest.leaves)

end

structure Document where
  before : Blank
  node : Node
  after : Blank

def Document.render (d : Document) : List UInt8 :=
  d.before.text ++ (d.node.render ++ d.after.text)

/-! ## Strings end at their quote -/

/-- The text of a string up to its quote, given whether a backslash takes the next byte
with it. -/
def rawString : Bool → List UInt8 → Option (List UInt8)
  | _, [] => none
  | true, b :: rest => (rawString false rest).map (b :: ·)
  | false, b :: rest =>
    if b = 34 then some [] else (rawString (b == 92) rest).map (b :: ·)

theorem rawString_plain {b} (hq : b ≠ 34) (hs : b ≠ 92) (rest : List UInt8) :
    rawString false (b :: rest) = (rawString false rest).map (b :: ·) := by
  rw [rawString, if_neg hq, beq_false_of_ne hs]

theorem rawString_escaped (b : UInt8) (rest : List UInt8) :
    rawString false (92 :: b :: rest) = (rawString false rest).map (92 :: b :: ·) := by
  change ((rawString false rest).map (b :: ·)).map (92 :: ·) = _
  rw [Option.map_map]
  rfl

theorem isHexDigit_plain {b} (h : isHexDigit b = true) : b ≠ 34 ∧ b ≠ 92 := by
  constructor
  · rintro rfl
    exact absurd h (by decide)
  · rintro rfl
    exact absurd h (by decide)

theorem rawString_chars {raw} (h : Chars raw) (rest : List UInt8) :
    rawString false (raw ++ 34 :: rest) = some raw := by
  induction h with
  | nil => rfl
  | plain _ hq hs _ ih => rw [cons_append, rawString_plain hq hs, ih]; rfl
  | escape _ _ ih => rw [cons_append, cons_append, rawString_escaped, ih]; rfl
  | unicode ha hb hc hd _ ih =>
    simp only [cons_append]
    rw [rawString_escaped, rawString_plain (isHexDigit_plain ha).1 (isHexDigit_plain ha).2,
      rawString_plain (isHexDigit_plain hb).1 (isHexDigit_plain hb).2,
      rawString_plain (isHexDigit_plain hc).1 (isHexDigit_plain hc).2,
      rawString_plain (isHexDigit_plain hd).1 (isHexDigit_plain hd).2, ih]
    rfl

/-! ## What is not in a string has no quotes -/

theorem Blank.no_quote (blank : Blank) : 34 ∉ blank.text := fun h =>
  absurd (blank.blank _ h) (by decide)

theorem Digits.no_quote (digits : Digits) : 34 ∉ digits.text := fun h =>
  absurd (digits.digits _ h) (by decide)

theorem Exponent.no_quote (e : Exponent) : 34 ∉ e.mark :: (e.sign ++ e.digits.text) := by
  intro h
  rcases mem_cons.mp h with h | h
  · rcases e.mark_eq with hm | hm <;> rw [hm] at h <;> exact absurd h (by decide)
  · rcases mem_append.mp h with h | h
    · rcases e.sign_eq with hs | hs | hs <;> rw [hs] at h <;>
        exact absurd h (by decide)
    · exact e.digits.no_quote h

theorem Number.no_quote (n : Number) : 34 ∉ n.text := by
  unfold Number.text
  simp only [mem_append, not_or]
  refine ⟨⟨⟨?_, n.whole.no_quote⟩, ?_⟩, ?_⟩
  · split <;> decide
  · cases n.fraction with
    | none => exact not_mem_nil
    | some digits =>
      intro h
      rcases mem_cons.mp h with h | h
      · exact absurd h (by decide)
      · exact digits.no_quote h
  · cases n.exponent with
    | none => exact not_mem_nil
    | some e => exact e.no_quote

theorem Word.no_quote (w : Word) : 34 ∉ w.text := by
  cases w <;> decide

/-! ## Brackets are nested -/

theorem le_of_replicate {n k : Nat} {text : List UInt8} (h : List.replicate n 91 <+: text)
    (hh : text.head? ≠ some 91) : n ≤ k := by
  cases n with
  | zero => exact Nat.zero_le k
  | succ n =>
    obtain ⟨rest, rfl⟩ := h
    exact absurd rfl hh

theorem Number.head_ne (n : Number) (text : List UInt8) : (n.text ++ text).head? ≠ some 91 := by
  have hw : ∀ rest, (n.whole.text ++ rest).head? ≠ some 91 := by
    intro rest h
    obtain ⟨b, digits, hd⟩ := exists_cons_of_ne_nil n.whole.nonempty
    rw [hd] at h
    cases h
    exact absurd (n.whole.digits 91 (by rw [hd]; exact mem_cons_self)) (by decide)
  unfold Number.text
  rw [append_assoc, append_assoc, append_assoc]
  cases n.negative with
  | true => exact nofun
  | false => exact hw _

/-- What the brackets behind blanks are worth is what they are worth without them: there
are no brackets behind blanks at the start of a text. -/
theorem Blank.replicate_behind (blank : Blank) {n : Nat} {text : List UInt8}
    (h : List.replicate n 91 <+: blank.text ++ text) : n = 0 ∨ List.replicate n 91 <+: text := by
  cases ht : blank.text with
  | nil =>
    rw [ht] at h
    exact .inr h
  | cons b rest =>
    refine .inl (Nat.le_zero.mp (le_of_replicate h fun hh => ?_))
    rw [ht] at hh
    cases hh
    exact absurd (blank.blank 91 (by rw [ht]; exact mem_cons_self)) (by decide)

mutual

/-- **A text that begins with `n` opening brackets is nested `n` deep.** -/
theorem Node.replicate_le_depth {n : Nat} {tail : List UInt8} :
    (node : Node) → List.replicate n 91 <+: node.render ++ tail → n ≤ node.depth
  | .word w, h => le_of_replicate h (by cases w <;> exact nofun)
  | .number k, h => le_of_replicate h (k.head_ne tail)
  | .string s, h => le_of_replicate h nofun
  | .emptyObject blank, h => le_of_replicate h nofun
  | .object members, h => le_of_replicate h nofun
  | .emptyArray blank, h => by
    cases n with
    | zero => exact Nat.zero_le _
    | succ n =>
      have hr : List.replicate n 91 <+: blank.text ++ 93 :: tail := by
        have := (cons_prefix_cons.mp h).2
        simpa using this
      rcases blank.replicate_behind hr with rfl | hr
      · exact le_rfl
      · exact Nat.succ_le_succ (le_of_replicate hr nofun)
  | .array items, h => by
    cases n with
    | zero => exact Nat.zero_le _
    | succ n =>
      exact Nat.succ_le_succ (Items.replicate_le_depth items (cons_prefix_cons.mp h).2)

theorem Items.replicate_le_depth {n : Nat} {tail : List UInt8} :
    (items : Items) → List.replicate n 91 <+: items.render ++ tail → n ≤ items.depth
  | .last before node after, h => by
    rw [Items.render, append_assoc] at h
    rcases before.replicate_behind h with rfl | h
    · exact Nat.zero_le _
    · rw [append_assoc] at h
      exact Node.replicate_le_depth node h
  | .more before node after rest, h => by
    rw [Items.render, append_assoc] at h
    rcases before.replicate_behind h with rfl | h
    · exact Nat.zero_le _
    · rw [append_assoc] at h
      exact (Node.replicate_le_depth node h).trans (le_max_left _ _)

end

end JsonText
