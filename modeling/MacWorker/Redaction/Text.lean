import MacWorker.Lib.Fallible
import MacWorker.Redaction.Stages

/-! # What a boundary returns

The text that a boundary returns is cut to a number of bytes. It is either the beginning
of its own redaction, or the beginning of the fixed text that is returned when the
redactions did not settle. -/
namespace MacWorker.Redaction
open List

/-! ## Bytes -/

section
variable {text tail : Text} {c : Char}

theorem byteLength_cons (c : Char) (text : Text) :
    byteLength (c :: text) = c.utf8Size + byteLength text := rfl

theorem truncateBytes_isPrefix (room : Nat) (text : Text) : truncateBytes room text <+: text := by
  induction text generalizing room with
  | nil => exact prefix_rfl
  | cons c text ih =>
    rw [truncateBytes]
    split
    · exact cons_prefix_cons.mpr ⟨rfl, ih _⟩
    · exact nil_prefix

theorem byteLength_truncateBytes_le (room : Nat) (text : Text) :
    byteLength (truncateBytes room text) ≤ room := by
  induction text generalizing room with
  | nil => exact Nat.zero_le _
  | cons c text ih =>
    rw [truncateBytes]
    split
    · have := ih (room - c.utf8Size)
      rw [byteLength_cons]
      omega
    · exact Nat.zero_le _

theorem truncateBytes_append {room} (h : byteLength text ≤ room) (tail : Text) :
    truncateBytes room (text ++ tail) = text ++ truncateBytes (room - byteLength text) tail := by
  induction text generalizing room with
  | nil => rfl
  | cons c text ih =>
    rw [byteLength_cons] at h ⊢
    rw [cons_append, truncateBytes, if_pos (by omega), ih (by omega), cons_append, Nat.sub_sub]

theorem truncateBytes_cut {room} (h : truncateBytes room (text ++ c :: tail) = text) :
    room < byteLength text + c.utf8Size := by
  have hf : byteLength text ≤ room := by
    rw [← h]
    exact byteLength_truncateBytes_le _ _
  rw [truncateBytes_append hf, append_right_eq_self, truncateBytes] at h
  split at h
  · cases h
  · omega

end

/-! ## Escapes -/

def escapeLetters : Text := '\\' :: 'n' :: 'r' :: 't' :: 'u' :: '\x7b' :: '\x7d' ::
    ['0', '1', '2', '3',
  '4', '5', '6', '7', '8', '9', 'a', 'b', 'c', 'd', 'e', 'f']

theorem hexDigit_mem (n : Nat) : hexDigit n ∈ escapeLetters := by
  unfold hexDigit
  rw [getD_eq_getElem?_getD]
  cases hn : ['0', '1', '2', '3', '4', '5', '6', '7', '8', '9', 'a', 'b', 'c', 'd', 'e',
    'f'][n]? with
  | none => decide
  | some d =>
    have hin := mem_of_getElem? hn
    simp only [escapeLetters, mem_cons]
    exact .inr (.inr (.inr (.inr (.inr (.inr (.inr (by simpa using hin)))))))

theorem escapeControl_cases (c : Char) : escapeControl c = [c] ∧ isControl c = false ∨
    '\\' ∈ escapeControl c ∧ ∀ d ∈ escapeControl c, d ∈ escapeLetters := by
  unfold escapeControl
  split
  · exact .inr (by simp [escapeLetters])
  · split
    · exact .inr (by simp [escapeLetters])
    · split
      · exact .inr (by simp [escapeLetters])
      · split
        · refine .inr ⟨mem_cons_self, fun d hd => ?_⟩
          simp only [mem_cons, not_mem_nil, or_false] at hd
          rcases hd with rfl | rfl | rfl | rfl | rfl | rfl | rfl | rfl
          · decide
          · decide
          · decide
          · decide
          · decide
          · exact hexDigit_mem _
          · exact hexDigit_mem _
          · decide
        · exact .inl ⟨rfl, Bool.eq_false_iff.mpr ‹_›⟩

theorem escapeControls_of_not_mem {text} (h : '\\' ∉ escapeControls text) :
    escapeControls text = text := by
  induction text with
  | nil => rfl
  | cons c text ih =>
    rw [escapeControls, flatMap_cons, mem_append, not_or] at h
    rcases escapeControl_cases c with ⟨hc, -⟩ | ⟨hin, -⟩
    · have hr := ih h.2
      rw [escapeControls] at hr ⊢
      rw [flatMap_cons, hc, hr]
      rfl
    · exact absurd hin h.1

theorem isControl_escapeControls {text c} (h : c ∈ escapeControls text) : isControl c = false := by
  have hl : escapeLetters.all (fun d => !isControl d) = true := by decide
  obtain ⟨d, -, hcd⟩ := mem_flatMap.mp h
  rcases escapeControl_cases d with ⟨heq, hp⟩ | ⟨-, ha⟩
  · rw [heq, mem_singleton] at hcd
    rw [hcd, hp]
  · simpa using all_eq_true.mp hl c (ha c hcd)

theorem escapeControls_of_plain {text} (h : ∀ c ∈ text, isControl c = false) :
    escapeControls text = text := by
  have hco : isControl '\n' = true ∧ isControl '\r' = true ∧ isControl '\t' = true := by decide
  have ha : ∀ c, isControl c = false → escapeControl c = [c] := by
    intro c hc
    unfold escapeControl
    split
    · simp_all
    · split
      · simp_all
      · split
        · simp_all
        · rw [if_neg (by simp [hc])]
  induction text with
  | nil => rfl
  | cons c text ih =>
    have hr := ih fun d hd => h d (mem_cons_of_mem _ hd)
    rw [escapeControls] at hr ⊢
    rw [flatMap_cons, ha c (h c mem_cons_self), hr]
    rfl

/-! ## The settled text -/

section
variable {boundary : RedactionBoundary} {maxBytes : Nat}

/-- A text of at most a number of bytes that redacting and cutting leaves as it is. -/
structure Settled (boundary : RedactionBoundary) (maxBytes : Nat) (text : Text) : Prop where
  fixed : truncateBytes maxBytes (boundary.redact text) = text

theorem settle_cases (passes : Nat) (text : Text) :
    Settled boundary maxBytes (boundary.settle maxBytes passes text) ∨
      boundary.settle maxBytes passes text = truncateBytes maxBytes unsettledPlaceholder := by
  induction passes generalizing text with
  | zero => exact .inr rfl
  | succ passes ih =>
    rw [RedactionBoundary.settle]
    split
    · rename_i hf
      exact .inl ⟨hf⟩
    · exact ih _

theorem text_cases (input : Text) : Settled boundary maxBytes (boundary.text input maxBytes) ∨
      boundary.text input maxBytes = truncateBytes maxBytes unsettledPlaceholder :=
  settle_cases _ _

/-- What replacements by placeholders and cuts keep of the escaped input, the text has. -/
theorem text_keeps {P : Text → Prop} (hp : ∀ {x y}, Rewrites x y → P x → P y)
    (hc : ∀ {x y}, y <+: x → P x → P y) {input} (h : P (escapeControls input)) :
    P (boundary.text input maxBytes) ∨
      boundary.text input maxBytes = truncateBytes maxBytes unsettledPlaceholder := by
  have hr : ∀ {x}, P x → P (truncateBytes maxBytes (boundary.redact x)) := fun hx =>
    hc (truncateBytes_isPrefix _ _) (redact_keeps hp boundary hx)
  have hs : ∀ passes x, P x → P (boundary.settle maxBytes passes x) ∨
      boundary.settle maxBytes passes x = truncateBytes maxBytes unsettledPlaceholder := by
    intro passes
    induction passes with
    | zero => exact fun _ _ => .inr rfl
    | succ passes ih =>
      intro x hx
      rw [RedactionBoundary.settle]
      split
      · exact .inl hx
      · exact ih _ (hr hx)
  exact hs _ _ (hr h)

theorem isControl_text (input : Text) (maxBytes : Nat) :
    ∀ c ∈ boundary.text input maxBytes, isControl c = false := by
  have hw : written.all (fun c => !isControl c) = true := by decide
  have hu : unsettledPlaceholder.all (fun c => !isControl c) = true := by decide
  have hr : ∀ {x y}, Rewrites x y → (∀ c ∈ x, isControl c = false) →
      ∀ c ∈ y, isControl c = false := by
    intro x y hr hx c hc
    by_cases hin : c ∈ written
    · simpa using all_eq_true.mp hw c hin
    · exact hx c (count_pos_iff.mp ((count_pos_iff.mpr hc).trans_le (hr.count_le hin)))
  rcases @text_keeps boundary maxBytes (fun x => ∀ c ∈ x, isControl c = false) hr
    (fun hp hx c hc => hx c (hp.subset hc)) input
      (fun c hc => isControl_escapeControls hc) with h | h
  · exact h
  · intro c hc
    rw [h] at hc
    simpa using all_eq_true.mp hu c ((truncateBytes_isPrefix _ _).subset hc)

theorem Absent.text {word input} (h : Absent word (escapeControls input)) :
    Absent word (boundary.text input maxBytes) ∨
      boundary.text input maxBytes = truncateBytes maxBytes unsettledPlaceholder :=
  text_keeps (fun hr hx => hx.rewrites hr) (fun hc hx => hx.part hc.isInfix) h

theorem Settled.text_eq {text} (h : Settled boundary maxBytes text)
    (hes : escapeControls text = text) : boundary.text text maxBytes = text := by
  rw [RedactionBoundary.text, hes, h.fixed, maxSettlePasses, RedactionBoundary.settle,
    h.fixed, if_pos rfl]

theorem Settled.redact_eq {text} (h : Settled boundary maxBytes text) :
    ∃ tail, boundary.redact text = text ++ tail := by
  obtain ⟨tail, ht⟩ := truncateBytes_isPrefix maxBytes (boundary.redact text)
  rw [h.fixed] at ht
  exact ⟨tail, ht.symm⟩

end

/-! ## The paths and secrets of a boundary -/

theorem mem_pushUnique {values value other} :
    other ∈ pushUnique values value ↔ other ∈ values ∨ other = value ∧ value ≠ [] := by
  unfold pushUnique
  split
  · rename_i hl
    constructor
    · exact .inl
    · rintro (hin | ⟨rfl, hne⟩)
      · exact hin
      · exact hl.resolve_left hne
  · rename_i hn
    push Not at hn
    simp [hn.1]

theorem mem_foldl_pushUnique {values more : List Text} {other : Text} :
    other ∈ more.foldl pushUnique values ↔ other ∈ values ∨ other ∈ more ∧ other ≠ [] := by
  refine (Fallible.foldl_iff (p := (other ∈ ·)) fun values value =>
    @mem_pushUnique values value other).trans (or_congr_right ?_)
  refine ⟨?_, fun ⟨hin, hne⟩ => ⟨other, hin, rfl, hne⟩⟩
  rintro ⟨value, hin, rfl, hne⟩
  exact ⟨hin, hne⟩

theorem mem_byLength {values value} : value ∈ byLength values ↔ value ∈ values :=
  (perm_insertionSort _ _).mem_iff

theorem mem_forHome_homes {home : Home} {path : Text} :
    path ∈ (RedactionBoundary.forHome home).homes ↔
      path ∈ commonPathPrefixes ∨ (home.raw = some path ∨ home.canonical = some path) ∧
        path ≠ [] := by
  unfold RedactionBoundary.forHome
  dsimp only
  rw [mem_byLength, mem_foldl_pushUnique]
  simp

theorem forall_forHome_homes {home : Home} {P : Text → Prop}
    (hc : ∀ path ∈ commonPathPrefixes, P path)
    (h : ∀ path, home.raw = some path ∨ home.canonical = some path → path ≠ [] → P path) :
    ∀ path ∈ (RedactionBoundary.forHome home).homes, P path := fun path hp =>
  (mem_forHome_homes.mp hp).elim (hc path) fun hp => h path hp.1 hp.2

/-- The secrets of a boundary, as they stand in a text without control characters. -/
theorem mem_withSecrets_secrets {home : Home} {secrets : List Text} {secret : Text} :
    secret ∈ ((RedactionBoundary.forHome home).withSecrets secrets).secrets ↔
      (∃ s ∈ secrets, escapeControls s = secret) ∧ secret ≠ [] := by
  unfold RedactionBoundary.withSecrets
  dsimp only
  rw [mem_byLength, mem_foldl_pushUnique]
  simp [RedactionBoundary.forHome]

end MacWorker.Redaction
