import MacWorker.Lib.Splice
import Mathlib.Algebra.GroupWithZero.Nat
import Mathlib.Data.List.Sort

/-! # The redaction boundary

Every text that is stored or shown goes through a boundary. Control characters are
escaped, the secrets of the host are replaced, then paths below the home directory and
tokens of well-known shapes, and the result is cut to a number of bytes. The cut can leave
a new token at the end, so the text is redacted again, at most four times; a text that
does not settle is given up for a fixed one.

A text is a list of characters; only its length is counted in bytes. -/
namespace MacWorker.Redaction
open Splice

abbrev Text := List Char

def byteLength (text : Text) : Nat := (text.map Char.utf8Size).sum

def pathPlaceholder : Text := ['[', 'p', 'a', 't', 'h', ']']

def tokenPlaceholder : Text := ['[', 't', 'o', 'k', 'e', 'n', ']']

def unsettledPlaceholder : Text := ['[', 'r', 'e', 'd', 'a', 'c', 't', 'e', 'd', ']']

/-! ## Characters -/

variable (input : Text) (c : Char) (rest : Text)

def isWhitespace : Bool :=
  let n := c.toNat
  (9 ≤ n && n ≤ 13) || n == 32 || n == 0x85 || n == 0xA0 || n == 0x1680 ||
    (0x2000 ≤ n && n ≤ 0x200A) || n == 0x2028 || n == 0x2029 || n == 0x202F || n == 0x205F ||
    n == 0x3000

def isControl : Bool := c.toNat < 32 || (127 ≤ c.toNat && c.toNat < 160)

def isAsciiGraphic : Bool := 33 ≤ c.toNat && c.toNat ≤ 126

def isHexDigit : Bool :=
  c.isDigit || ('a' ≤ c && c ≤ 'f') || ('A' ≤ c && c ≤ 'F')

def hexDigit (n : Nat) : Char := ['0', '1', '2', '3', '4', '5', '6', '7', '8', '9', 'a', 'b', 'c',
  'd', 'e', 'f'].getD n '0'

def escapeControl : Text :=
  if c = '\n' then ['\\', 'n']
  else if c = '\r' then ['\\', 'r']
  else if c = '\t' then ['\\', 't']
  else if isControl c then
    ['\\', 'u', '\x7b', '0', '0', hexDigit (c.toNat / 16), hexDigit (c.toNat % 16), '\x7d']
  else [c]

def escapeControls : Text := input.flatMap escapeControl

/-- The longest beginning of a text that has no more bytes than it may. -/
def truncateBytes : Nat → Text → Text
  | _, [] => []
  | room, c :: text => if c.utf8Size ≤ room then c :: truncateBytes (room - c.utf8Size) text else []

/-! ## Paths -/

def isPathStart : Bool :=
  isWhitespace c || ['\x22', '\x27', '=', ':', ',', '(', '['].contains c

def isPathStop : Bool :=
  isWhitespace c || ['\x22', '\x27', ',', ')', ']', ';'].contains c

/-- Whether a path may begin behind a text, which is given last first. -/
def pathTokenStart (before : Text) : Bool := before.head?.all isPathStart

def skipPathToken (text : Text) : Text := text.dropWhile fun c => !isPathStop c

/-- A tilde path: a tilde alone, or one that a slash follows. What is left of a text
behind a path begins with a character that no tilde is, so looking back over it changes
nothing. -/
def tildePath : Hit Char := fun before rest =>
  if rest.head? = some '~' ∧ pathTokenStart before = true ∧ (rest.drop 1).head?.all (· == '/') then
    some (rest.length - (skipPathToken rest).length, pathPlaceholder)
  else none

def redactTildePaths : Text := splice tildePath [] 0 input

/-- The places of a word as they are searched for: one after the end of the other. -/
def searchPlaces (word : Text) : Nat → Nat → Text → List Nat
  | _, _, [] => []
  | skip + 1, index, _ :: rest => searchPlaces word skip (index + 1) rest
  | 0, index, c :: rest =>
    if word <+: c :: rest then index :: searchPlaces word (word.length - 1) (index + 1) rest
    else searchPlaces word 0 (index + 1) rest

def isPathTokenStart (index : Nat) : Bool :=
  pathTokenStart (input.take index).reverse

/-- The first place of a path wins, and of the paths there the longest. -/
def nearer (found : Option (Nat × Text)) (start : Nat) (home : Text) : Bool :=
  found.all fun best => start < best.1 ||
    (start == best.1 && byteLength best.2 < byteLength home)

def keepNearest (input home : Text) (found : Option (Nat × Text)) (start : Nat) :
    Option (Nat × Text) :=
  if isPathTokenStart input start && nearer found start home then some (start, home) else found

def nextHomePath (homes : List Text) : Option (Nat × Text) :=
  homes.foldl (fun found home =>
    (searchPlaces home 0 0 input).foldl (keepNearest input home) found) none

def behindHome (start : Nat) (home : Text) : Text :=
  let behind := skipPathToken (rest.drop (start + home.length))
  if home <+: behind then behind.drop 1 else behind

def redactHomePathsFrom (homes : List Text) : Nat → Text → Text
  | 0, rest => rest
  | fuel + 1, rest =>
    match nextHomePath rest homes with
    | none => rest
    | some (start, home) =>
      rest.take start ++ (pathPlaceholder ++
        redactHomePathsFrom homes fuel (behindHome rest start home))

/-- Every path takes at least a character, so there are no more rounds than characters. -/
def redactHomePaths (homes : List Text) : Text :=
  redactHomePathsFrom homes input.length input

/-! ## Tokens -/

def bearer : Text := ['B', 'e', 'a', 'r', 'e', 'r']

def isTokenRun : Bool :=
  isAsciiGraphic c && !(['\x22', '\x27', ',', ')', ']'].contains c)

def skipTokenRun (text : Text) : Text := text.dropWhile isTokenRun

def isSkByte : Bool := c.isAlphanum || c == '_' || c == '-'

def isBase64Body : Bool := c.isAlphanum || c == '+' || c == '/'

def stripPlaceholder (value : Text) : Text :=
  if tokenPlaceholder <+: value then value.drop tokenPlaceholder.length
  else if pathPlaceholder <+: value then value.drop pathPlaceholder.length
  else value

def behindBearer : Text :=
  skipTokenRun (stripPlaceholder ((rest.drop bearer.length).dropWhile isWhitespace))

def isBearer : Bool :=
  (rest.take bearer.length).map Char.toLower == bearer.map Char.toLower &&
    (rest.drop bearer.length).head?.any isWhitespace

def skToken : Text := ['s', 'k', '-']

def isSk : Bool :=
  skToken.isPrefixOf rest && 8 ≤ ((rest.drop skToken.length).takeWhile isSkByte).length

def isHexToken : Bool :=
  let run := rest.takeWhile Char.isAlphanum
  32 ≤ run.length && run.all isHexDigit

def base64TokenLen : Option Nat :=
  let body := rest.takeWhile isBase64Body
  let padding := ((rest.drop body.length).takeWhile (· == '=')).take 2
  if 32 ≤ body.length &&
      (rest.drop (body.length + padding.length)).head?.all (fun c => !isBase64Body c) then
    some (body.length + padding.length)
  else none

/-- What is found at a place, and what is written for it. The value of a bearer token that
is a placeholder already is taken whole. -/
def tokenAt : Option (Nat × Text) :=
  if isBearer rest then
    some (rest.length - (behindBearer rest).length, bearer ++ [' '] ++ tokenPlaceholder)
  else if isSk rest then
    some (rest.length - (skipTokenRun (rest.drop skToken.length)).length, tokenPlaceholder)
  else if isHexToken rest then some ((rest.takeWhile Char.isAlphanum).length, tokenPlaceholder)
  else (base64TokenLen rest).map fun length => (length, tokenPlaceholder)

def redactTokens : Text := splice (fun _ => tokenAt) [] 0 input

/-! ## The boundary -/

structure RedactionBoundary where
  (homes secrets : List Text)

def commonPathPrefixes : List Text :=
  ["/Users/".toList, "/home/".toList, "/private/var/folders/".toList, "/var/folders/".toList,
    "/private/tmp/".toList, "/tmp/".toList]

def pushUnique (values : List Text) (value : Text) : List Text :=
  if value = [] ∨ value ∈ values then values else values ++ [value]

def byLength (values : List Text) : List Text :=
  values.insertionSort fun a b => byteLength b ≤ byteLength a

/-- A home directory: its path, and the path without symbolic links. Either may be missing. -/
structure Home where
  (raw canonical : Option Text)

def RedactionBoundary.forHome (home : Home) : RedactionBoundary :=
  let homes := (home.raw.toList ++ home.canonical.toList).foldl pushUnique commonPathPrefixes
  ⟨byLength homes, []⟩

def RedactionBoundary.withSecrets (boundary : RedactionBoundary) (secrets : List Text) :
    RedactionBoundary :=
  { boundary with
    secrets := byLength ((secrets.map escapeControls).foldl pushUnique boundary.secrets) }

def redactSecrets (secrets : List Text) (input : Text) : Text :=
  secrets.foldl (fun input secret => replace input secret tokenPlaceholder) input

def RedactionBoundary.redact (boundary : RedactionBoundary) (input : Text) : Text :=
  redactTokens (redactHomePaths (redactTildePaths (redactSecrets boundary.secrets input))
    boundary.homes)

def maxSettlePasses : Nat := 4

def RedactionBoundary.settle (boundary : RedactionBoundary) (maxBytes : Nat) : Nat → Text → Text
  | 0, _ => truncateBytes maxBytes unsettledPlaceholder
  | passes + 1, text =>
    let again := truncateBytes maxBytes (boundary.redact text)
    if again = text then text else boundary.settle maxBytes passes again

def RedactionBoundary.text (boundary : RedactionBoundary) (input : Text) (maxBytes : Nat) : Text :=
  boundary.settle maxBytes maxSettlePasses
    (truncateBytes maxBytes (boundary.redact (escapeControls input)))

end MacWorker.Redaction
