import MacWorker.Redaction.Settled
import MacWorker.Redaction.Text

/-! # What a boundary never lets through

A secret without brackets that is in no placeholder stands at fewer places of a text after
each redaction, and at no more after everything else that is done to a text: a settled
text has none. Then its redaction has nothing to redact but bearer tokens.

Home paths are searched for one after the end of the other, so a path with a part that is
repeated at its end, behind a character where a path may begin, is let through. -/
namespace MacWorker.Redaction
open List hiding replace
open Splice
open RedactionBoundary (forHome)

/-! ## Secrets -/

section
variable {secret : Text}

/-- A secret that a boundary can keep: no part of a placeholder. -/
structure Keepable (secret : Text) : Prop where
  noOpen : '[' ∉ secret
  noClose : ']' ∉ secret
  notToken : ¬ secret <:+: "token".toList
  notPath : ¬ secret <:+: "path".toList
  notRedacted : ¬ secret <:+: "redacted".toList

theorem Keepable.ne_nil (h : Keepable secret) : secret ≠ [] := by
  rintro rfl
  exact h.notToken nil_infix

theorem Keepable.clear (h : Keepable secret) : Clear secret tokenPlaceholder :=
  clear_of_ends h.noOpen h.noClose h.ne_nil h.notToken

theorem Keepable.escaped (h : Keepable secret) : Keepable (escapeControls secret) := by
  have hbr : ∀ b, b = '[' ∨ b = ']' → b ∉ secret → b ∉ escapeControls secret := by
    intro b hb hn hin
    obtain ⟨c, hc, hbc⟩ := mem_flatMap.mp hin
    rcases escapeControl_cases c with ⟨heq, -⟩ | ⟨-, hl⟩
    · rw [heq, mem_singleton] at hbc
      exact hn (hbc ▸ hc)
    · rcases hb with rfl | rfl
      · exact absurd (hl _ hbc) (by decide)
      · exact absurd (hl _ hbc) (by decide)
  have hw : ∀ word : Text, '\\' ∉ word → ¬ secret <:+: word →
      ¬ escapeControls secret <:+: word := by
    intro word hs hno his
    rw [escapeControls_of_not_mem fun hin => hs (his.subset hin)] at his
    exact hno his
  exact ⟨hbr _ (.inl rfl) h.noOpen, hbr _ (.inr rfl) h.noClose,
    hw _ (by decide) h.notToken, hw _ (by decide) h.notPath, hw _ (by decide) h.notRedacted⟩

end

/-! ## Texts without a leak -/

/-- Behind `f`, a path may begin, and there it begins again inside itself. -/
structure Overlaps (path f : Text) : Prop where
  ne_nil : f ≠ []
  start : pathTokenStart f.reverse = true
  again : ∃ g, path = f ++ g ∧ g ≠ [] ∧ g <+: path

theorem not_overlaps {path f} (h : path.any isPathStart = false) : ¬ Overlaps path f := by
  rintro ⟨hf, hs, g, rfl, -⟩
  rcases eq_nil_or_concat f with rfl | ⟨f, c, rfl⟩
  · exact hf rfl
  · have hc : isPathStart c = false := by
      simpa using any_eq_false.mp h c (by simp)
    simp [pathTokenStart, hc] at hs

/-- What a text may not have. -/
structure NoLeak (homes secrets : List Text) (text : Text) : Prop where
  secret : ∀ secret ∈ secrets, ¬ secret <:+: text
  home : ∀ home ∈ homes, ∀ front, front ++ home <+: text → pathTokenStart front.reverse = false
  tilde : NoTildePath text
  /-- The value of a bearer token is a placeholder, or what is left of one at the end. -/
  bearer : ∀ front keyword space value, text = front ++ (keyword ++ space :: value) →
    keyword.map Char.toLower = Redaction.bearer.map Char.toLower → isWhitespace space = true →
    value <+: tokenPlaceholder ∨
      ∃ rest, value = tokenPlaceholder ++ rest ∧ ∀ c ∈ rest.head?, isTokenRun c = false
  sk : ∀ front behind, text = front ++ (skToken ++ behind) → (behind.takeWhile isSkByte).length < 8
  hex : ∀ front run behind, text = front ++ (run ++ behind) → (∀ c ∈ run, c.isAlphanum = true) →
    (∀ c ∈ front.getLast?, c.isAlphanum = false) → (∀ c ∈ behind.head?, c.isAlphanum = false) →
    32 ≤ run.length → ∃ c ∈ run, isHexDigit c = false

section
variable {homes secrets : List Text} {text tail : Text}

theorem pathTokenStart_append {front f : Text} (h : f ≠ []) :
    pathTokenStart (front ++ f).reverse = pathTokenStart f.reverse := by
  rcases eq_nil_or_concat f with rfl | ⟨f, c, rfl⟩
  · exact absurd rfl h
  · simp [pathTokenStart]

/-- A home path that is not found where it stands begins inside another one. -/
theorem overlaps_of_noHomePath (h : NoHomePath homes text) {home} (hh : home ∈ homes)
    (hne : home ≠ []) {front} (hs : front ++ home <+: text)
    (hst : pathTokenStart front.reverse = true) :
    ∃ f, Overlaps home f ∧ f ++ home <:+: text := by
  rcases sought_or_inside hne hs with hso | ⟨front', f, g, hso, rfl, hf, hg, hw⟩
  · rw [h home hh front hso] at hst
    cases hst
  · -- Its beginning is the other one's end.
    rw [pathTokenStart_append hf] at hst
    refine ⟨f, ⟨hf, hst, g, hw, hg, ?_⟩, ?_⟩
    · obtain ⟨behind, hbe⟩ := hso.stands
      rw [← hbe, append_assoc, append_assoc, prefix_append_right_inj] at hs
      have hb : f ++ home <+: f ++ (g ++ behind) := by
        rw [← append_assoc f g, ← hw]
        exact hs
      rw [prefix_append_right_inj] at hb
      refine prefix_of_prefix_length_le (prefix_append g behind) hb ?_
      rw [hw, length_append]
      omega
    · obtain ⟨behind, hbe⟩ := hs
      exact ⟨front', behind, by rw [← hbe]; simp⟩

theorem NoLeak.not_overlapped (h : NoLeak homes secrets text) {home f} (hh : home ∈ homes)
    (ho : Overlaps home f) : ¬ f ++ home <:+: text := by
  rintro ⟨front, behind, heq⟩
  have hs := h.home home hh (front ++ f) ⟨behind, by rw [← heq]; simp⟩
  rw [pathTokenStart_append ho.ne_nil, ho.start] at hs
  cases hs

section
variable (hs : ∀ home ∈ homes, '/' ∈ home ∨ Absent home text)
  (hse : ∀ secret ∈ secrets, Keepable secret)
  (h : redactTokens (redactHomePaths (redactTildePaths (redactSecrets secrets text)) homes) =
    text ++ tail)
include hs hse h

theorem secrets_absent : ∀ secret ∈ secrets, ¬ secret <:+: text := by
  obtain ⟨ps, hps, ha⟩ := exists_balanced hs h
  intro secret hin
  have hk := hse secret hin
  exact hps.secret_absent ha hin hk.ne_nil hk.noOpen hk.clear

theorem noLeak_of_settled
    (hov : ∀ home ∈ homes, ∀ f, Overlaps home f → ¬ f ++ home <:+: text) :
    NoLeak homes secrets text := by
  obtain ⟨ps, hps, -⟩ := exists_balanced hs h
  have hn := secrets_absent hs hse h
  have hsa : redactSecrets (secrets.filter isWritten) text = text :=
    redactSecrets_of_none fun secret hin => hn secret (mem_of_mem_filter hin)
  refine ⟨hn, ?_, hps.no_tilde, ?_, ?_, ?_⟩
  · intro home hh front hst
    have hnh := hps.noHomePath
    rw [hsa] at hnh
    rw [Bool.eq_false_iff]
    intro hp
    obtain ⟨f, ho, hin⟩ := overlaps_of_noHomePath hnh hh
      ((hs home hh).elim ne_nil_of_mem Absent.ne_nil) hst hp
    exact hov home hh f ho hin
  · intro front keyword space value heq hke hsc
    have hsi : keyword.length = 6 := by
      have := congrArg List.length hke
      rw [length_map, length_map] at this
      exact this
    have hb : isBearer (keyword ++ space :: value) = true :=
      isBearer_iff.mpr ⟨keyword, space, value, rfl, hsi, hke, hsc⟩
    have hsp : bearerToken = bearer ++ ' ' :: tokenPlaceholder := rfl
    rcases hps.bearer_text heq hb with ⟨rest, hr, hru⟩ | ⟨⟨rest, hcu⟩, -, -⟩
    · rw [hsp, append_assoc, cons_append] at hr
      obtain ⟨-, hv⟩ := append_inj hr hsi
      exact .inr ⟨rest, (List.cons.inj hv).2, hru⟩
    · rw [hsp, append_assoc, cons_append] at hcu
      obtain ⟨-, hv⟩ := append_inj hcu hsi
      exact .inl ⟨rest, (List.cons.inj hv).2⟩
  · intro front behind heq
    have hno := hps.no_sk heq
    rw [Bool.eq_false_iff, ne_eq, isSk_iff] at hno
    by_contra hl
    exact hno ⟨_, (prefix_append_right_inj _).mpr (List.takeWhile_prefix _), by omega,
      all_eq_true.mp all_takeWhile⟩
  · intro front run behind heq hru _ hbe hl
    have hno := (hps.no_run heq).1
    by_contra hal
    push Not at hal
    have ht : (run ++ behind).takeWhile Char.isAlphanum = run := by
      cases behind with
      | nil => rw [takeWhile_append_of_pos hru, takeWhile_nil, append_nil]
      | cons c behind => exact takeWhile_stop hru (hbe c rfl)
    have hhe : run.all isHexDigit = true := all_eq_true.mpr fun c hc => by simpa using hal c hc
    simp [isHexToken, ht, hl, hhe] at hno

end

theorem noLeak_of_unsettled
    (hsl : ∀ home ∈ homes, '/' ∈ home ∨ ¬ home <:+: unsettledPlaceholder)
    (hse : ∀ secret ∈ secrets, Keepable secret) (h : text <+: unsettledPlaceholder) :
    NoLeak homes secrets text := by
  have hm : ∀ {c : Char}, c ∈ text → c ∈ unsettledPlaceholder := fun hin => h.subset hin
  refine ⟨fun secret hin his => ?_, fun home hh front hst => ?_, fun front behind heq => ?_,
    fun front keyword space value heq _ hs => ?_, fun front behind heq => ?_,
    fun front run behind heq _ _ _ hl => ?_⟩
  · have hk := hse secret hin
    have hw : secret <:+: [] ++ '[' :: ("redacted".toList ++ ']' :: []) := his.trans h.isInfix
    rcases infix_split hk.noOpen hw with hni | hir
    · exact hk.ne_nil (infix_nil.mp hni)
    · rcases infix_split hk.noClose hir with hwo | hni
      · exact hk.notRedacted hwo
      · exact hk.ne_nil (infix_nil.mp hni)
  · rcases hsl home hh with hin | hn
    · have := hm (hst.subset (mem_append_right _ hin))
      exact absurd this (by decide)
    · exact absurd ((suffix_append front home).isInfix.trans (hst.trans h).isInfix) hn
  · have : '~' ∈ unsettledPlaceholder := hm (by rw [heq]; simp)
    exact absurd this (by decide)
  · have hb : unsettledPlaceholder.all (fun c => !isWhitespace c) = true := by decide
    have hin : space ∈ unsettledPlaceholder := hm (by rw [heq]; simp)
    have hn : isWhitespace space = false := by simpa using all_eq_true.mp hb space hin
    cases hn.symm.trans hs
  · have : '-' ∈ unsettledPlaceholder := hm (by rw [heq]; simp [skToken])
    exact absurd this (by decide)
  · have hle := h.length_le
    rw [heq, length_append, length_append, show unsettledPlaceholder.length = 10 from rfl] at hle
    omega

theorem commonPathPrefixes_plain : ∀ path ∈ commonPathPrefixes, '/' ∈ path ∧
    path.any isPathStart = false := by decide

/-- What the boundary of a home directory and secrets returns for an input leaks nothing. -/
def Tight (home : Home) (secrets : List Text) (input : Text) (maxBytes : Nat) : Prop :=
  NoLeak (forHome home).homes (secrets.map escapeControls)
    (((forHome home).withSecrets secrets).text input maxBytes)

section
variable {home : Home} {input : Text} {maxBytes : Nat}
  (hk : ∀ secret ∈ secrets, Keepable secret)
include hk

theorem mem_secrets_iff {secret} :
    secret ∈ ((forHome home).withSecrets secrets).secrets ↔
      secret ∈ secrets.map escapeControls := by
  rw [mem_withSecrets_secrets, mem_map]
  refine ⟨And.left, fun hin => ⟨hin, ?_⟩⟩
  obtain ⟨s, hs, rfl⟩ := hin
  exact (hk s hs).escaped.ne_nil

theorem keepable_escaped : ∀ secret ∈ secrets.map escapeControls, Keepable secret := by
  intro secret hin
  obtain ⟨s, hs, rfl⟩ := mem_map.mp hin
  exact (hk s hs).escaped

theorem tight_of_settled
    (hs : ∀ path ∈ (forHome home).homes, '/' ∈ path ∨ Absent path text)
    (hov : ∀ path ∈ (forHome home).homes, ∀ f, Overlaps path f →
      ¬ f ++ path <:+: text)
    (h : Settled ((forHome home).withSecrets secrets) maxBytes text) :
    NoLeak (forHome home).homes (secrets.map escapeControls) text := by
  obtain ⟨tail, ht⟩ := h.redact_eq
  have hn := noLeak_of_settled hs
    (fun secret hin => keepable_escaped hk secret ((mem_secrets_iff hk).mp hin)) ht hov
  exact { hn with secret := fun secret hin => hn.secret secret ((mem_secrets_iff hk).mpr hin) }

/-- Without the secrets, which are not in it, a settled text is settled too. -/
theorem Settled.without (hs : ∀ path ∈ (forHome home).homes, '/' ∈ path)
    (h : Settled ((forHome home).withSecrets secrets) maxBytes text) :
    Settled (forHome home) maxBytes text := by
  obtain ⟨tail, ht⟩ := h.redact_eq
  have hn := redactSecrets_of_none (secrets_absent (fun path hp => .inl (hs path hp))
    (fun secret hin => keepable_escaped hk secret ((mem_secrets_iff hk).mp hin)) ht)
  have hf := h.fixed
  rw [RedactionBoundary.redact, hn] at hf
  exact ⟨hf⟩

end

end

end MacWorker.Redaction
