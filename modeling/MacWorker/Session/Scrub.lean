import MacWorker.Base
import MacWorker.Lib.Splice
import MacWorker.Lib.WordTrie

/-! # Scrubbing secrets from a text

A text is scanned from the left. At every place three recognisers say how much of the
text from there is a secret: the exact secrets the scrubber was made with, the blocks of
private keys, and tokens of well-known shapes. The longest of them is replaced as a whole
and the scan goes on behind it, so what begins inside it is not looked at again. -/
namespace MacWorker.Session
open Splice

def scrubbed : List UInt8 := bytes "[scrubbed]"

/-- Exact secrets shorter than eight bytes are ignored. -/
def exactSecrets (secrets : List (List UInt8)) : List (List UInt8) :=
  secrets.filter fun secret => 8 ≤ secret.length

structure Scrubber where
  exact : WordTrie.Trie UInt8

def Scrubber.new (secrets : List (List UInt8)) : Scrubber := ⟨WordTrie.build (exactSecrets secrets)⟩

def isWord (byte : UInt8) : Bool := isAsciiAlphanumeric byte || byte == 95

def isBearerByte (byte : UInt8) : Bool :=
  isAsciiAlphanumeric byte || (bytes "._~+/=-").contains byte

def isKeyByte (byte : UInt8) : Bool := isWord byte || byte == 45

def isSlackByte (byte : UInt8) : Bool := isAsciiAlphanumeric byte || byte == 45

/-- How a token begins, how much has to follow, of which bytes, and how much of the
beginning is kept. -/
structure TokenPattern where
  (lead minimum : Nat)
  allowed : UInt8 → Bool
  keep : Nat

def TokenPattern.span (p : TokenPattern) (input : List UInt8) : Nat × Nat :=
  let length := ((input.drop p.lead).takeWhile p.allowed).length
  if p.minimum ≤ length then (p.lead + length, p.keep) else (0, 0)

variable (scrubber : Scrubber) (input : List UInt8)

/-- The key of an access id: exactly sixteen capitals and digits. -/
def akiaSpan : Nat × Nat :=
  if ((input.drop 4).take 16).all (fun byte => isAsciiUppercase byte || isAsciiDigit byte) &&
      !(input[20]?.any isAsciiAlphanumeric) then (20, 0)
  else (0, 0)

def tokenSpan : Nat × Nat :=
  if (bytes "Bearer ").isPrefixOf input then TokenPattern.span ⟨7, 16, isBearerByte, 7⟩ input
  else if (bytes "sk-ant-").isPrefixOf input then TokenPattern.span ⟨7, 16, isKeyByte, 0⟩ input
  else if (bytes "sk-").isPrefixOf input then TokenPattern.span ⟨3, 20, isKeyByte, 0⟩ input
  else if (bytes "github_pat_").isPrefixOf input then TokenPattern.span ⟨11, 40, isWord, 0⟩ input
  else if 4 ≤ input.length && (bytes "gh").isPrefixOf input &&
      input[2]?.any (bytes "posur").contains && input[3]? == some 95 then
    TokenPattern.span ⟨4, 30, isAsciiAlphanumeric, 0⟩ input
  else if 5 ≤ input.length && (bytes "xox").isPrefixOf input &&
      input[3]?.any (bytes "abprs").contains && input[4]? == some 45 then
    TokenPattern.span ⟨5, 10, isSlackByte, 0⟩ input
  else if (bytes "AKIA").isPrefixOf input && 20 ≤ input.length then akiaSpan input
  else (0, 0)

/-! ## Blocks of private keys -/

/-- Whether a token or a block may begin at a place. -/
def atWordStart (index : Nat) : Bool :=
  index == 0 || !(input[index - 1]?.any isWord)

/-- A line that opens or closes a block of a private key. -/
structure Delimiter where
  start : Nat
  opens : Bool
  label : List UInt8
  finish : Nat

def isLabelByte (byte : UInt8) : Bool := !(byte == 45 || byte == 10 || byte == 13)

def isPrivateKeyLabel (label : List UInt8) : Bool :=
  label == bytes "PRIVATE KEY" || (bytes " PRIVATE KEY").isSuffixOf label

def delimiterLead (rest : List UInt8) : Option (Nat × Bool) :=
  if (bytes "-----BEGIN ").isPrefixOf rest then some (11, true)
  else if (bytes "-----END ").isPrefixOf rest then some (9, false)
  else none

/-- The delimiters from a place on. A label that is not one of a private key, or is not
followed by dashes, is passed over. -/
def delimitersFrom (input : List UInt8) : Nat → Nat → List Delimiter
  | 0, _ => []
  | fuel + 1, index =>
    if input.length ≤ index then []
    else
      match delimiterLead (input.drop index) with
      | none => delimitersFrom input fuel (index + 1)
      | some (lead, opens) =>
        let label := (input.drop (index + lead)).takeWhile isLabelByte
        let stop := index + lead + label.length
        if isPrivateKeyLabel label && (bytes "-----").isPrefixOf (input.drop stop) then
          ⟨index, opens, label, stop + 5⟩ :: delimitersFrom input fuel (stop + 5)
        else delimitersFrom input fuel stop

def delimiters : List Delimiter := delimitersFrom input input.length 0

/-- The blocks that are open, with where they began, and how far the closed ones reach. -/
structure PemState where
  pending : List (List UInt8 × Nat)
  spans : List Nat

def PemState.open (state : PemState) (d : Delimiter) : PemState :=
  if atWordStart input d.start && (state.pending.lookup d.label).isNone then
    { state with pending := (d.label, d.start) :: state.pending }
  else state

def PemState.close (state : PemState) (d : Delimiter) : PemState :=
  match state.pending.lookup d.label with
  | none => state
  | some start =>
    ⟨state.pending.filter fun entry => entry.1 != d.label,
      state.spans.modify start (max · (d.finish - start))⟩

def PemState.step (state : PemState) (d : Delimiter) : PemState :=
  if d.opens then state.open input d else state.close d

def pemSpans (spans : List Nat) : List Nat :=
  ((delimiters input).foldl (PemState.step input) ⟨[], spans⟩).spans

/-! ## The scan -/

/-- How far exact secrets and blocks reach from every place. -/
def Scrubber.spans : List Nat :=
  pemSpans input (WordTrie.scan scrubber.exact input).2

/-- What is replaced at a place, and how much of it is kept. Exact secrets win ties. -/
def Scrubber.spanAt (index : Nat) : Option (Nat × Nat) :=
  let span := (scrubber.spans input).getD index 0
  let token := if atWordStart input index then tokenSpan (input.drop index) else (0, 0)
  if max span token.1 = 0 then none
  else some (max span token.1, if span < token.1 then token.2 else 0)

/-- A byte of the output that was copied, with the place it was copied from, or a
replacement. -/
inductive Segment where
  | copied (index : Nat) (byte : UInt8)
  | replaced
  deriving DecidableEq

def Segment.bytes : Segment → List UInt8
  | copied _ byte => [byte]
  | replaced => scrubbed

def placed : List Segment := input.zipIdx.map fun p => .copied p.2 p.1

def Scrubber.hit : Hit Segment := fun before rest =>
  (scrubber.spanAt input before.length).map fun span => (span.1, rest.take span.2 ++ [.replaced])

def Scrubber.segments : List Segment :=
  splice (scrubber.hit input) [] 0 (placed input)

/-- The text without its secrets, and how many were replaced. A text without secrets is
not copied. -/
def Scrubber.scrubText : List UInt8 × Nat :=
  let segments := scrubber.segments input
  let count := segments.count .replaced
  (if count = 0 then [] else segments.flatMap Segment.bytes, count)

end MacWorker.Session
