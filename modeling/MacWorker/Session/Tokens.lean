import MacWorker.Base
import MacWorker.Lib.Splice
import Mathlib.Data.List.Sort

/-! # Session texts that move between workspaces

A session text names the workspace it was recorded in and its own id. Before it is stored,
the paths of the workspace become one token and the id another; when the session is placed
somewhere else, the tokens become the new path and the id again.

The roots are rewritten one after the other, and only the text at the start is checked for
tokens. What a token is joined with there can therefore make another one. -/
namespace MacWorker.Session
open List hiding replace
open Fallible Splice

def workspaceToken : List UInt8 := bytes "@@MW_WORKSPACE@@"

def sessionToken : List UInt8 := bytes "@@MW_SESSION@@"

def isBoundary (byte : UInt8) : Bool :=
  byte < 128 && !(isAsciiAlphanumeric byte || (bytes "_.-").contains byte)

def backslash : UInt8 := 92

/-- Whether a root may begin after this text, given last byte first. A JSON escape is a
boundary too, and an escaped backslash before a letter is not an escape. -/
def leftBoundary : List UInt8 → Bool
  | [] => true
  | byte :: earlier =>
    isBoundary byte || ((bytes "nrtbf\"/").contains byte &&
      (earlier.takeWhile (· == backslash)).length % 2 == 1)

def rightBoundary (rest : List UInt8) : Bool := rest.head?.all isBoundary

/-- A root that stands between boundaries. -/
def rootAt (root before rest : List UInt8) : Option Nat :=
  if root.isPrefixOf rest && leftBoundary before && rightBoundary (rest.drop root.length) then
    some root.length
  else none

def rewriteRoot (text root new : List UInt8) : List UInt8 :=
  if root = [] then text else splice (fixed (rootAt root) new) [] 0 text

def isAsciiControl (byte : UInt8) : Bool := byte < 32 || byte == 127

def isJsonSafePath (path : List UInt8) : Bool :=
  !path.any fun byte => byte == 34 || byte == backslash || isAsciiControl byte

def hasWord (text word : List UInt8) : Bool := text.tails.any word.isPrefixOf

variable (roots : List (List UInt8))

def longestFirst : List (List UInt8) :=
  roots.insertionSort fun a b => b.length ≤ a.length

def normalize (text : List UInt8) (roots : List (List UInt8)) (sessionId : List UInt8) :
    Except WorkerError (List UInt8) := do
  ensure ((hasWord text workspaceToken || hasWord text sessionToken) = false)
    (.task "SESSION_UNREADABLE" "session contains a reserved token")
  ensure (roots.all isJsonSafePath = true)
    (.task "SESSION_UNREADABLE" "session path is not JSON-safe")
  let output := (longestFirst roots).foldl
    (fun output root => rewriteRoot output root workspaceToken) text
  return replace output sessionId sessionToken

def materialize (text workspace sessionId : List UInt8) : Except WorkerError (List UInt8) := do
  ensure (isJsonSafePath workspace = true)
    (.task "SESSION_PLACEMENT_FAILED" "workspace path is not JSON-safe")
  return replace (replace text workspaceToken workspace) sessionToken sessionId

/-! ## What moving a text is for -/

/-- The longest of the roots that stands at a place. -/
def anyRootAt (before rest : List UInt8) : Option Nat :=
  roots.findSome? fun root => rootAt root before rest

def moved (text new : List UInt8) : List UInt8 :=
  splice (fixed (anyRootAt (longestFirst roots)) new) [] 0 text

def slash : UInt8 := 47

def Absolute (path : List UInt8) : Prop := path.head? = some slash

/-- Digits, letters up to `f` and dashes. -/
def isUuidText (text : List UInt8) : Bool :=
  text.length == 36 && text.all fun byte =>
    isAsciiDigit byte || (97 ≤ byte && byte ≤ 102) || (65 ≤ byte && byte ≤ 70) || byte == 45

/-- `root` is rewritten after `earlier`. It does not begin where `earlier` ends unless that
is a boundary of the text itself, and where it stands `earlier` does not begin inside. -/
structure Separated (text earlier root : List UInt8) : Prop where
  after : ∀ before rest, text = before.reverse ++ (earlier ++ (root ++ rest)) →
    rootAt earlier before (earlier ++ (root ++ rest)) ≠ none → rightBoundary rest = true →
    leftBoundary (earlier.reverse ++ before) = true
  inside : ∀ before u v rest, u ≠ [] → v ≠ [] → root = u ++ v →
    text = before.reverse ++ (root ++ rest) → rootAt root before (root ++ rest) ≠ none →
    rootAt earlier (u.reverse ++ before) (v ++ rest) = none

/-- The runs of a text between its roots: the same ones whatever stands for the roots. -/
structure Cut (text : List UInt8) (runs : List (List UInt8)) (last : List UInt8) : Prop where
  moved_eq : ∀ new, moved roots text new = new.intercalate (runs ++ [last])
  part : ∀ run ∈ runs ++ [last], run <:+: text

/-- Nothing in the text, the roots and the workspace is joined to a token. -/
structure Unambiguous (text workspace sessionId : List UInt8) (runs : List (List UInt8))
    (last : List UInt8) : Prop where
  separated : (longestFirst roots).Pairwise fun earlier root =>
    Clear root workspaceToken ∧ Separated text earlier root
  cut : Cut roots text runs last
  /-- No token of an id begins before it. -/
  ids : ∀ front behind, text = front ++ (sessionId ++ behind) → Late sessionToken front
  /-- No token of a root begins before it, once the ids are replaced. -/
  late : ∀ run ∈ runs, Late workspaceToken (replace run sessionId sessionToken)
  free : ¬ workspaceToken <:+: replace last sessionId sessionToken
  /-- No token of an id overlaps a workspace. -/
  joint : ((runs ++ [last]).map fun run => replace run sessionId sessionToken).IsChain
    (Joint sessionToken workspace)

/-! ## Roots -/

section
variable {root before rest : List UInt8}

theorem Absolute.ne_nil (h : Absolute root) : root ≠ [] := by
  rintro rfl
  cases h

theorem rootAt_eq_some {n} : rootAt root before rest = some n ↔
    (root <+: rest ∧ leftBoundary before = true ∧ rightBoundary (rest.drop root.length) = true) ∧
      root.length = n := by
  rw [rootAt, Option.ite_none_right_eq_some, Bool.and_eq_true, Bool.and_eq_true,
    isPrefixOf_iff_prefix, Option.some.injEq, and_assoc (a := root <+: rest)]

theorem rootAt_ne_none : rootAt root before rest ≠ none ↔
    root <+: rest ∧ leftBoundary before = true ∧ rightBoundary (rest.drop root.length) = true := by
  rw [Option.ne_none_iff_exists']
  exact ⟨fun ⟨n, hn⟩ => (rootAt_eq_some.mp hn).1, fun h => ⟨_, rootAt_eq_some.mpr ⟨h, rfl⟩⟩⟩

theorem anyRootAt_sound {roots} (h : ∀ root ∈ roots, Absolute root) (new : List UInt8) :
    Sound (fixed (anyRootAt roots) new) := by
  intro text before rest n new' _ hh
  obtain ⟨ha, -⟩ := fixed_eq_some.mp hh
  obtain ⟨root, hr, hat⟩ := exists_of_findSome?_eq_some ha
  obtain ⟨⟨hs, -, -⟩, rfl⟩ := rootAt_eq_some.mp hat
  exact ⟨length_pos_iff.mpr (h root hr).ne_nil, hs.length_le⟩

theorem anyRootAt_singleton (root before rest : List UInt8) :
    anyRootAt [root] before rest = rootAt root before rest := by
  cases h : rootAt root before rest <;> simp [anyRootAt, h]

theorem mem_longestFirst {roots} : root ∈ longestFirst roots ↔ root ∈ roots := by
  unfold longestFirst
  exact (perm_insertionSort _ roots).mem_iff

/-- Every root becomes the token. -/
abbrev tokenised (roots : List (List UInt8)) : Hit UInt8 := fixed (anyRootAt roots) workspaceToken

/-- What stands after a place ends a root there exactly when it does so once the roots in
it are replaced. -/
theorem rightBoundary_splice {roots} (h : ∀ root ∈ roots, Absolute root)
    (before rest : List UInt8) :
    rightBoundary (splice (tokenised roots) before 0 rest) = rightBoundary rest := by
  cases rest with
  | nil => rw [splice_nil]
  | cons b rest =>
    cases hh : tokenised roots before (b :: rest) with
    | none => rw [splice_miss hh]; rfl
    | some answer =>
      obtain ⟨n, new⟩ := answer
      obtain ⟨ha, rfl⟩ := fixed_eq_some.mp hh
      obtain ⟨root, hr, hat⟩ := exists_of_findSome?_eq_some ha
      obtain ⟨⟨⟨rest', hs⟩, -, -⟩, rfl⟩ := rootAt_eq_some.mp hat
      have habsolute := h root hr
      rw [← hs] at hh ⊢
      rw [splice_hit hh habsolute.ne_nil]
      cases root with
      | nil => cases habsolute
      | cons c root =>
        cases habsolute
        rfl

end

/-! ## One root after the other -/

section
variable {text : List UInt8} {earlier : List (List UInt8)} {root : List UInt8}

/-- The text before a place, and the same with the earlier roots replaced: a root may
begin after the one when it may begin after the other, but for the end of an earlier
root. -/
structure Parallel (earlier : List (List UInt8)) (before replaced rest : List UInt8) : Prop where
  escapes : before.takeWhile (· == backslash) = replaced.takeWhile (· == backslash)
  left : leftBoundary before = leftBoundary replaced ∨ leftBoundary replaced = true ∧
    ∃ found ∈ earlier, ∃ start, before = found.reverse ++ start ∧
      rootAt found start (found ++ rest) ≠ none

theorem Parallel.cons {before replaced rest rest'} (b : UInt8)
    (h : Parallel earlier before replaced rest) :
    Parallel earlier (b :: before) (b :: replaced) rest' where
  escapes := by rw [takeWhile_cons, takeWhile_cons, h.escapes]
  left := .inl (by rw [leftBoundary, leftBoundary, h.escapes])

theorem Parallel.append {before replaced rest rest' same} (hs : same ≠ [])
    (h : Parallel earlier before replaced rest) :
    Parallel earlier (same ++ before) (same ++ replaced) rest' := by
  induction same with
  | nil => exact absurd rfl hs
  | cons b same ih =>
    cases same with
    | nil => exact h.cons b
    | cons c same => exact (ih (cons_ne_nil _ _)).cons b

theorem Parallel.found {before replaced rest found} (hf : found ∈ earlier)
    (habsolute : Absolute found) (hs : isJsonSafePath found = true)
    (hat : rootAt found before (found ++ rest) ≠ none) :
    Parallel earlier (found.reverse ++ before) (workspaceToken.reverse ++ replaced) rest where
  escapes := by
    have hl : ∀ b earlier', found.reverse = b :: earlier' → (b == backslash) = false := by
      intro b earlier' hr
      have hm : b ∈ found := mem_reverse.mp (hr ▸ mem_cons_self)
      have hb : ¬ (b == 34 || b == backslash || isAsciiControl b) = true := by
        intro hba
        have : found.any (fun byte => byte == 34 || byte == backslash || isAsciiControl byte) =
          true :=
          any_eq_true.mpr ⟨b, hm, hba⟩
        simp [isJsonSafePath, this] at hs
      simp only [Bool.or_eq_true, not_or] at hb
      simpa using hb.1.2
    cases hr : found.reverse with
    | nil => exact absurd (reverse_eq_nil_iff.mp hr) habsolute.ne_nil
    | cons b earlier' =>
      rw [cons_append, takeWhile_cons, hl b earlier' hr]
      rfl
  left := .inr ⟨rfl, found, hf, before, rfl, hat⟩

theorem not_prefix_of_head {root rest} (habsolute : Absolute root) (h : rest.head? ≠ some slash) :
    ¬ root <+: rest := by
  intro hs
  obtain ⟨tail, rfl⟩ := hs
  cases root with
  | nil => cases habsolute
  | cons c root => exact h habsolute

theorem splice_token (habsolute : Absolute root) (before rest : List UInt8) :
    splice (fixed (rootAt root) workspaceToken) before 0 (workspaceToken ++ rest) =
      workspaceToken ++
        splice (fixed (rootAt root) workspaceToken) (workspaceToken.reverse ++ before) 0 rest := by
  refine splice_misses fun u v hs hv => fixed_eq_none.mpr ?_
  by_contra hat
  obtain ⟨hst, -, -⟩ := rootAt_ne_none.mp hat
  refine not_prefix_of_head habsolute ?_ hst
  cases v with
  | nil => exact absurd rfl hv
  | cons c v =>
    have hm : c ∈ workspaceToken := by rw [hs]; simp
    have hsl : slash ∉ workspaceToken := by decide
    intro hc
    cases hc
    exact hsl hm

theorem splice_no_roots (before rest : List UInt8) : splice (tokenised []) before 0 rest = rest :=
  splice_self (anyRootAt_sound (fun _ h => absurd h not_mem_nil) _) (fun _ _ _ _ h => by cases h)
    before rest

section
variable (habsolute : ∀ found ∈ earlier, Absolute found)
  (hsep : ∀ found ∈ earlier, Clear root workspaceToken ∧ Separated text found root)
include habsolute hsep

theorem root_of_replaced {before rest} (h : root <+: splice (tokenised earlier) before 0 rest) :
    ∃ rest', rest = root ++ rest' ∧ splice (tokenised earlier) before 0 rest =
      root ++ splice (tokenised earlier) (root.reverse ++ before) 0 rest' := by
  cases earlier with
  | nil =>
    rw [splice_no_roots] at h ⊢
    obtain ⟨rest', rfl⟩ := h
    exact ⟨rest', rfl, by rw [splice_no_roots]⟩
  | cons found earlier =>
    exact splice_prefix (anyRootAt_sound habsolute workspaceToken) (hsep found mem_cons_self).1 h

/-- Where neither the earlier roots nor this one stand in the text, this one does not
stand once the earlier ones are replaced. -/
theorem rootAt_replaced {before replaced rest b} (ht : text = before.reverse ++ b :: rest)
    (hp : Parallel earlier before replaced (b :: rest))
    (hm : anyRootAt earlier before (b :: rest) = none)
    (hn : rootAt root before (b :: rest) = none) :
    rootAt root replaced (b :: splice (tokenised earlier) (b :: before) 0 rest) = none := by
  by_contra hat
  rw [← splice_miss (fixed_eq_none.mpr hm)] at hat
  obtain ⟨hst, hl, hr⟩ := rootAt_ne_none.mp hat
  obtain ⟨rest', hre, hsp⟩ := root_of_replaced habsolute hsep hst
  rw [hsp, List.drop_left, rightBoundary_splice habsolute] at hr
  rw [hre] at ht hn hp
  have hb : leftBoundary before = true := by
    rcases hp.left with hsa | ⟨-, found, hf, start, rfl, hfa⟩
    · rw [hsa, hl]
    · refine (hsep found hf).2.after start rest' ?_ hfa hr
      rw [ht]
      simp
  exact rootAt_ne_none.mpr ⟨prefix_append _ _, hb, by rwa [List.drop_left]⟩ hn

/-- **One more root.** Replacing a root in the text with the earlier ones replaced is
replacing them all at once. -/
theorem splice_splice (hsa : ∀ found ∈ earlier, isJsonSafePath found = true) (hro : Absolute root)
    {before replaced rest} (ht : text = before.reverse ++ rest)
    (hp : Parallel earlier before replaced rest) :
    splice (fixed (rootAt root) workspaceToken) replaced 0
        (splice (tokenised earlier) before 0 rest) =
      splice (tokenised (earlier ++ [root])) before 0 rest := by
  have hso : Sound (tokenised (earlier ++ [root])) := by
    refine anyRootAt_sound (fun found hf => ?_) _
    rcases mem_append.mp hf with hf | hf
    · exact habsolute found hf
    · exact mem_singleton.mp hf ▸ hro
  have ha : ∀ before rest, anyRootAt (earlier ++ [root]) before rest =
      (anyRootAt earlier before rest).or (rootAt root before rest) := by
    intro before rest
    rw [← anyRootAt_singleton, anyRootAt, findSome?_append]
    rfl
  induction before, rest using scan_induction hso generalizing replaced with
  | nil before => simp
  | found before found rest new hne hh ih =>
    obtain ⟨hat, rfl⟩ := fixed_eq_some.mp hh
    rw [ha] at hat
    have ht' : text = (found.reverse ++ before).reverse ++ rest := by simp [ht]
    rw [splice_hit hh hne]
    cases hfi : anyRootAt earlier before (found ++ rest) with
    | some n =>
      -- An earlier root stands here: its token is passed over.
      rw [hfi, Option.some_or, Option.some.injEq] at hat
      subst hat
      obtain ⟨r, hr, hra⟩ := exists_of_findSome?_eq_some hfi
      obtain ⟨⟨hs, -, -⟩, hl⟩ := rootAt_eq_some.mp hra
      obtain rfl := word_eq_found hs hl
      rw [splice_hit (fixed_eq_some.mpr ⟨hfi, rfl⟩) hne, splice_token hro]
      have hat : rootAt r before (r ++ rest) ≠ none := by simp [hra]
      rw [ih ht' (Parallel.found hr (habsolute r hr) (hsa r hr) hat)]
    | none =>
      -- The root itself stands here, untouched by the earlier ones.
      rw [hfi, Option.none_or] at hat
      obtain ⟨⟨hs, hle, hri⟩, hl⟩ := rootAt_eq_some.mp hat
      obtain rfl := word_eq_found hs hl
      rw [List.drop_left] at hri
      have hun : splice (tokenised earlier) before 0 (root ++ rest) =
          root ++ splice (tokenised earlier) (root.reverse ++ before) 0
            rest := by
        refine splice_misses fun u v hsp hv => fixed_eq_none.mpr ?_
        by_cases hu : u = []
        · subst hu
          rw [nil_append] at hsp
          subst hsp
          exact hfi
        · refine findSome?_eq_none_iff.mpr fun r hr => ?_
          exact (hsep r hr).2.inside before u v rest hu hv hsp ht (by simp [hat])
      have hl' : leftBoundary replaced = true := by
        rcases hp.left with hsm | ⟨hen, -⟩
        · rw [← hsm, hle]
        · exact hen
      have hn : rootAt root replaced (root ++ splice (tokenised earlier)
          (root.reverse ++ before) 0 rest) = some root.length := by
        refine rootAt_eq_some.mpr ⟨⟨prefix_append _ _, hl', ?_⟩, rfl⟩
        rw [List.drop_left, rightBoundary_splice habsolute, hri]
      rw [hun, splice_hit (fixed_eq_some.mpr ⟨hn, rfl⟩) hne]
      rw [ih ht' (hp.append (by simpa using hne))]
  | copied before b rest hh ih =>
    have hat := fixed_eq_none.mp hh
    rw [ha, Option.or_eq_none_iff] at hat
    have hno := rootAt_replaced habsolute hsep ht hp hat.1 hat.2
    rw [splice_miss hh, splice_miss (fixed_eq_none.mpr hat.1),
      splice_miss (fixed_eq_none.mpr hno), ih (by simp [ht]) (hp.cons b)]

end

theorem rewritten_eq_moved {roots} (habsolute : ∀ root ∈ roots, Absolute root)
    (hs : ∀ root ∈ roots, isJsonSafePath root = true)
    (hsep : roots.Pairwise fun earlier root => Clear root workspaceToken ∧
      Separated text earlier root) :
    roots.foldl (fun output root => rewriteRoot output root workspaceToken) text =
      splice (tokenised roots) [] 0 text := by
  induction roots using List.reverseRecOn with
  | nil => exact (splice_no_roots [] text).symm
  | append_singleton earlier root ih =>
    have hin : ∀ r ∈ earlier, r ∈ earlier ++ [root] := fun r hr => mem_append_left _ hr
    have hro : root ∈ earlier ++ [root] := by simp
    obtain ⟨hse, -, hla⟩ := pairwise_append.mp hsep
    rw [foldl_append, ih (fun r hr => habsolute r (hin r hr)) (fun r hr => hs r (hin r hr)) hse,
      foldl_cons, foldl_nil, rewriteRoot, if_neg (habsolute root hro).ne_nil]
    exact splice_splice (fun r hr => habsolute r (hin r hr))
      (fun r hr => hla r hr root mem_cons_self) (fun r hr => hs r (hin r hr)) (habsolute root hro)
      rfl ⟨rfl, .inl rfl⟩

end

/-! ## There and back -/

theorem not_infix_of_hasWord {text word} (h : hasWord text word = false) : ¬ word <:+: text := by
  intro hin
  obtain ⟨rest, hs, hr⟩ := infix_iff_prefix_suffix.mp hin
  have := any_eq_false.mp h rest ((mem_tails _ _).mpr hr)
  exact this (List.isPrefixOf_iff_prefix.mpr hs)

section
variable {text workspace sessionId : List UInt8} {roots : List (List UInt8)}

theorem isUuidText_bytes (h : isUuidText sessionId = true) :
    sessionId.length = 36 ∧ 64 ∉ sessionId := by
  rw [isUuidText, Bool.and_eq_true, beq_iff_eq, all_eq_true] at h
  refine ⟨h.1, fun hat => ?_⟩
  have hb := h.2 64 hat
  revert hb
  decide

/-- The token is shorter than an id, and ends in a byte that no id has. -/
theorem clear_sessionId (h : isUuidText sessionId = true) : Clear sessionId workspaceToken := by
  obtain ⟨hle, hat⟩ := isUuidText_bytes h
  refine ⟨fun x y => prefix_of_head (c := 64) rfl hat, fun v y hv hs hst => ?_⟩
  have hsh : v.length ≤ 16 := hs.length_le
  have hv' : v <+: sessionId := prefix_of_prefix_length_le (prefix_append v y) hst (by omega)
  have hl : v.getLast hv = 64 := by
    have := hs.getLast hv
    rw [this]
    rfl
  exact hat (hv'.subset (hl ▸ getLast_mem hv))

theorem replace_sessionId_back {run} (hid : sessionId ≠ []) (hs : ¬ sessionToken <:+: run)
    (h : ∀ front behind, run = front ++ (sessionId ++ behind) → Late sessionToken front) :
    replace (replace run sessionId sessionToken) sessionToken sessionId = run := by
  obtain ⟨runs, hne, hr, hru, hre⟩ := exists_runs_replace hid run
  obtain ⟨runs, last, rfl⟩ := (eq_nil_or_concat' runs).resolve_left hne
  rw [hre, replace_intercalate (by decide) _ (fun x hx => ?_) fun hin =>
    hs (hin.trans (hr last (by simp)))]
  · exact hru.symm
  · obtain ⟨front, behind, rfl⟩ := append_of_mem hx
    obtain ⟨y, z, heq, hsu⟩ := @intercalate_at _ sessionId x (behind ++ [last])
      (by simp) front
    refine (h y z ?_).ending hsu
    rw [hru, append_assoc, cons_append]
    exact heq

/-- **The tokens are the only thing that moves.** -/
theorem materialize_tokens {runs last} (hid : isUuidText sessionId = true)
    (hs : ¬ sessionToken <:+: text) (h : Unambiguous roots text workspace sessionId runs last) :
    replace (replace (replace (workspaceToken.intercalate (runs ++ [last])) sessionId sessionToken)
      workspaceToken workspace) sessionToken sessionId = workspace.intercalate
        (runs ++ [last]) := by
  have hid' : sessionId ≠ [] := by
    rintro rfl
    cases hid
  have hm : (runs ++ [last]).map (fun run => replace run sessionId sessionToken) =
      runs.map (fun run => replace run sessionId sessionToken) ++
        [replace last sessionId sessionToken] := map_append
  have hw : ∀ x ∈ runs.map (fun run => replace run sessionId sessionToken),
      Late workspaceToken x := by
    intro x hx
    obtain ⟨run, hru, rfl⟩ := mem_map.mp hx
    exact h.late run hru
  rw [replace_between hid' _ (by simp)
      (pairwise_of_forall (clear_sessionId hid).joint).isChain, hm,
    replace_intercalate (by decide) _ hw h.free, ← hm,
    replace_between (by decide) _ (by simp) h.joint, map_map]
  congr 1
  refine (map_congr_left fun run hru => ?_).trans (map_id _)
  obtain ⟨x, y, ht⟩ := h.cut.part run hru
  refine replace_sessionId_back hid' (fun hin => hs (hin.trans (h.cut.part run hru))) ?_
  intro front behind heq
  refine (h.ids (x ++ front) (behind ++ y) ?_).ending (suffix_append _ _)
  rw [← ht, heq]
  simp

theorem moved_self (habsolute : Absolute workspace) : moved [workspace] text workspace = text := by
  have hon : ∀ root ∈ longestFirst [workspace], Absolute root := by
    intro root hr
    rw [mem_singleton.mp (mem_longestFirst.mp hr)]
    exact habsolute
  refine splice_self (anyRootAt_sound hon _) ?_ [] text
  intro before found rest new hh
  obtain ⟨ha, rfl⟩ := fixed_eq_some.mp hh
  obtain ⟨root, hr, hat⟩ := exists_of_findSome?_eq_some ha
  obtain rfl := mem_singleton.mp (mem_longestFirst.mp hr)
  obtain ⟨⟨hs, -, -⟩, hl⟩ := rootAt_eq_some.mp hat
  exact word_eq_found hs hl

end

def sampleId : List UInt8 := bytes "018f0f4a-6b5c-7d8e-9f00-112233445566"

end MacWorker.Session
