import MacWorker.Redaction.Settled
import MacWorker.Redaction.Text

/-! # Stored texts

A record is read back through a boundary without secrets, which has to leave its texts as
they are. A settled text has no tokens left but bearer tokens that are placeholders, and
no tilde paths.

A home path is found in the text where it was found when the secrets were out: it stands
at the same slashes, since no path reaches into the placeholder of a bearer token. One
that does is hidden when a secret inside the placeholder is taken out, and stands there
again when the token is written. -/
namespace MacWorker.Redaction
open Splice List
open RedactionBoundary (forHome)

/-! ## Home paths -/

/-- Where the placeholder of a bearer token begins. -/
def bearerOpen : Text := bearer ++ [' ', '[']

section
variable {homes active : List Text} {text tail word : Text} {ps qs rs : List (Piece Char)}

theorem Bearers.word_input (h : Bearers ps) (hw : ¬ bearerOpen <:+: word)
    (hs : word <+: output ps) : word <+: input ps := by
  induction ps generalizing word with
  | nil => exact hs
  | cons p ps ih =>
    cases p with
    | copied c =>
      cases word with
      | nil => exact nil_prefix
      | cons d word =>
        obtain ⟨rfl, hr⟩ := cons_prefix_cons.mp hs
        have hir : ¬ bearerOpen <:+: word := fun hin => hw (hin.trans (suffix_cons _ _).isInfix)
        exact cons_prefix_cons.mpr ⟨rfl, ih h.tail hir hr⟩
    | replaced found new =>
      obtain ⟨value, rfl, rfl⟩ := h found new mem_cons_self
      have hop : bearerOpen <+: output (.replaced (bearer ++ ' ' :: value) bearerToken :: ps) :=
        ⟨['t', 'o', 'k', 'e', 'n', ']'] ++ output ps, rfl⟩
      rcases prefix_or_prefix_of_prefix hs hop with hin | hin
      · have hk : word <+: bearer ++ [' '] := by
          have hl : bearerOpen = bearer ++ [' '] ++ ['['] := rfl
          rw [hl] at hin
          rcases prefix_concat_iff.mp hin with rfl | hk
          · exact absurd infix_rfl hw
          · exact hk
        exact hk.trans ⟨value ++ input ps, by simp⟩
      · exact absurd hin.isInfix hw

/-- Behind every bearer token that is found a bracket opens. -/
theorem Balanced.open_behind (h : Balanced homes active text tail ps) {value}
    (heq : ps = qs ++ .replaced (bearer ++ ' ' :: value) bearerToken :: rs) {d}
    (hd : (value ++ input rs).head? = some d) : d = '[' := by
  by_contra hot
  obtain ⟨word, hw⟩ : ∃ word, word = bearer ++ [' ', d] := ⟨_, rfl⟩
  have hop : '[' ∉ word := by
    rw [hw, mem_append]
    rintro (hin | hin)
    · exact absurd hin (by decide)
    · simp [Ne.symm hot] at hin
  have hc : Clear word tokenPlaceholder :=
    clear_of_heads rfl hop (by rw [hw]; rfl) (show 'B' ∉ tokenPlaceholder by decide)
  have hs : word <+: bearer ++ ' ' :: value ++ input rs := by
    obtain ⟨rest, hr⟩ : ∃ rest, value ++ input rs = d :: rest := by
      cases hv : value ++ input rs with
      | nil =>
        rw [hv] at hd
        cases hd
      | cons e rest =>
        rw [hv] at hd
        cases hd
        exact ⟨rest, rfl⟩
    exact ⟨rest, by simp [hw, hr]⟩
  have hk : ¬ word <+: bearer ++ [' '] := by
    intro hin
    have := hin.length_le
    rw [hw] at this
    simp at this
  have hm := h.bearers.marked
  rw [heq] at hm
  have hlt : places word (output (qs ++ .replaced (bearer ++ ' ' :: value)
      (bearer ++ [' '] ++ tokenPlaceholder) :: rs)) <
      places word (input (qs ++ .replaced (bearer ++ ' ' :: value)
        (bearer ++ [' '] ++ tokenPlaceholder) :: rs)) :=
    places_output_lt hk (by simp) ⟨value, by simp⟩ hm rfl hop hc hs
  have hse := places_redactSecrets_le hop hc active text
  have hmo : places word text ≤ places word (text ++ tail) := places_append_right _ _
  have hsa : qs ++ .replaced (bearer ++ ' ' :: value)
      (bearer ++ [' '] ++ tokenPlaceholder) :: rs = ps := heq.symm
  rw [hsa, h.output_eq, h.input_eq] at hlt
  omega

theorem Balanced.word_output (h : Balanced homes active text tail (qs ++ ps))
    (hw : ¬ bearerOpen <:+: word) (hs : word <+: input ps) : word <+: output ps := by
  induction ps generalizing qs word with
  | nil => exact hs
  | cons p ps ih =>
    have hsh : qs ++ p :: ps = qs ++ [p] ++ ps := by simp
    cases p with
    | copied c =>
      cases word with
      | nil => exact nil_prefix
      | cons d word =>
        obtain ⟨rfl, hr⟩ := cons_prefix_cons.mp hs
        have hir : ¬ bearerOpen <:+: word := fun hin => hw (hin.trans (suffix_cons _ _).isInfix)
        exact cons_prefix_cons.mpr ⟨rfl, ih (hsh ▸ h) hir hr⟩
    | replaced found new =>
      obtain ⟨value, rfl, rfl⟩ := h.bearers found new (by simp)
      have hk : bearer ++ [' '] <+: input (.replaced (bearer ++ ' ' :: value) bearerToken :: ps) :=
        ⟨value ++ input ps, by simp⟩
      rcases prefix_or_prefix_of_prefix hs hk with hin | ⟨more, rfl⟩
      · exact hin.trans ⟨tokenPlaceholder ++ output ps, by simp [bearerToken]⟩
      · cases more with
        | nil => exact ⟨tokenPlaceholder ++ output ps, by simp [bearerToken]⟩
        | cons d more =>
          -- The word would reach into the placeholder.
          exfalso
          have hb : d :: more <+: value ++ input ps := by
            rw [input_replaced, show bearer ++ ' ' :: value = bearer ++ [' '] ++ value by simp,
              append_assoc (bearer ++ [' ']), prefix_append_right_inj] at hs
            exact hs
          have hd : (value ++ input ps).head? = some d := by
            obtain ⟨rest, hr⟩ := hb
            rw [← hr]
            rfl
          have hop := h.open_behind rfl hd
          exact hw ⟨[], more, by rw [hop]; rfl⟩

/-- A home path stands at the same slashes of what goes in and what comes out. -/
theorem Balanced.standsAt_iff (h : Balanced homes active text tail ps) {home}
    (hs : home.head? = some '/') (hh : ¬ bearerOpen <:+: home) (k : Nat) :
    StandsAt '/' home (text ++ tail) k ↔ StandsAt '/' home (input ps) k := by
  obtain ⟨home, rfl⟩ : ∃ rest, home = '/' :: rest := by
    cases home with
    | nil => cases hs
    | cons c home =>
      cases hs
      exact ⟨home, rfl⟩
  have hir : ¬ bearerOpen <:+: home := fun hin => hh (hin.trans (suffix_cons _ _).isInfix)
  have hf := h.found_written (c := '/') (by decide)
  have hc : ∀ {qs rs}, ps = qs ++ rs → (output qs).count '/' = (input qs).count '/' := by
    intro qs rs heq
    exact count_output_eq fun found new hin => hf found new (by rw [heq]; simp [hin])
  constructor
  · rintro ⟨front, hk, behind, hbe⟩
    have hou : output ps = front ++ '/' :: (home ++ behind) := by
      rw [h.output_eq, ← hbe]
      simp
    obtain ⟨qs, rs, rfl, rfl, hrs⟩ := h.bearers.copied_of_output (by decide) hou
    refine ⟨input qs, by rw [← hc rfl, hk], ?_⟩
    rw [input_append, input_copied, prefix_append_right_inj, cons_prefix_cons]
    exact ⟨rfl, h.bearers.right.tail.word_input hir ⟨behind, hrs.symm⟩⟩
  · rintro ⟨front, hk, behind, hbe⟩
    have hin : input ps = front ++ '/' :: (home ++ behind) := by
      rw [← hbe]
      simp
    rcases input_split hin with
      ⟨qs, rs, rfl, rfl, hrs⟩ | ⟨qs, found, new, rs, f, g, rfl, hcu, -, hg, -, hb⟩
    · cases rs with
      | nil => cases hrs
      | cons p rs =>
        cases p with
        | copied c =>
          rw [input_copied] at hrs
          obtain ⟨rfl, hr⟩ := List.cons.inj hrs
          refine ⟨output qs, by rw [hc rfl, hk], ?_⟩
          rw [← h.output_eq, output_append, output_copied, prefix_append_right_inj,
            cons_prefix_cons]
          have hsh : qs ++ .copied '/' :: rs = qs ++ [.copied '/'] ++ rs := by simp
          exact ⟨rfl, (hsh ▸ h).word_output hir ⟨behind, hr.symm⟩⟩
        | replaced found new =>
          obtain ⟨value, rfl, -⟩ := h.bearers found new (by simp)
          cases congrArg List.head? hrs
    · -- No slash is in a stretch that is replaced.
      obtain ⟨d, g, rfl⟩ := exists_cons_of_ne_nil hg
      rw [cons_append] at hb
      obtain ⟨rfl, -⟩ := List.cons.inj hb
      exact absurd (by rw [hcu]; simp) (hf found new (by simp)).1

/-- A path that goes on behind `Bearer [` as the text that is written for a token. -/
def MeetsBearer (path : Text) : Prop :=
  ∃ front behind, path = front ++ behind ∧ bearerOpen <+: behind ∧ (behind <+: bearerToken ∨
    ∃ rest, behind = bearerToken ++ rest ∧ ∀ c ∈ rest.head?, isTokenRun c = false)

theorem Balanced.meetsBearer (h : Balanced homes active text tail ps) {home front}
    (hs : front ++ home <+: text) (hb : bearerOpen <:+: home) : MeetsBearer home := by
  obtain ⟨x, y, heq⟩ := hb
  rw [append_assoc] at heq
  obtain ⟨behind, hbe⟩ := hs
  refine ⟨x, bearerOpen ++ y, heq.symm, prefix_append _ _, ?_⟩
  have ht : text = front ++ x ++ (bearerOpen ++ y ++ behind) := by
    rw [← hbe, ← heq]
    simp
  have hbr : isBearer (bearerOpen ++ y ++ behind) = true :=
    isBearer_iff.mpr ⟨bearer, ' ', '[' :: (y ++ behind), rfl, rfl, rfl, by decide⟩
  rcases h.bearer_text ht hbr with ⟨rest, hr, hru⟩ | ⟨hcu, -, -⟩
  · rcases append_eq_append_iff.mp hr with ⟨as, hbt, -⟩ | ⟨as, hby, rfl⟩
    · exact .inl ⟨as, hbt.symm⟩
    · refine .inr ⟨as, hby, fun c hc => hru c ?_⟩
      cases as with
      | nil => cases hc
      | cons d as => exact hc
  · exact .inl ((prefix_append _ _).trans hcu)

/-- A home path that does not meet a bearer token is found in the text only where it is
found with the secrets out. -/
theorem Balanced.home_text (h : Balanced homes active text tail ps) {home} (hh : home ∈ homes)
    (ha : home.head? = some '/') (hho : ¬ MeetsBearer home) {front}
    (hs : Sought home text front) : pathTokenStart front.reverse = false := by
  have hbo : ¬ bearerOpen <:+: home := fun hb => hho (h.meetsBearer hs.stands hb)
  -- It is found at the same slash with the secrets out.
  have hsa : StandsAt '/' home text (front.count '/') := ⟨front, rfl, hs.stands⟩
  have hl : SoughtAt '/' home (text ++ tail) (front.count '/') :=
    (soughtAt_congr ha fun j hj => standsAt_append ha hj hsa tail).mp
      ⟨front, rfl, hs⟩
  obtain ⟨front', hc', hs'⟩ :=
    (soughtAt_congr ha fun j _ => h.standsAt_iff ha hbo j).mp hl
  have hm := mark_of_stands ha hs.stands
  have hou : ∃ behind, output ps = front ++ '/' :: behind := by
    obtain ⟨behind, hb⟩ := hm
    exact ⟨behind ++ tail, by rw [h.output_eq, ← hb]; simp⟩
  obtain ⟨behind, hou⟩ := hou
  obtain ⟨qs, rs, rfl, rfl, -⟩ := h.bearers.copied_of_output (by decide) hou
  have hf : front' = input qs := by
    refine eq_of_count_eq (mark_of_stands ha hs'.stands) ⟨input rs, by simp⟩ ?_
    rw [hc']
    exact count_output_eq fun found new hin =>
      h.found_written (by decide) found new (mem_append_left _ hin)
  rw [h.input_eq, hf] at hs'
  have hn := h.noHomePath home hh (input qs) hs'
  rw [Bool.eq_false_iff]
  intro hst
  rw [h.bearers.left.pathTokenStart_input hst] at hn
  cases hn

/-- A secret that stands in no settled text without being seen: it has a character that no
placeholder has, or it is clear of the placeholder of a token. -/
def Apart (secret : Text) : Prop :=
  (∃ c ∈ secret, c ∉ written) ∨ '[' ∉ secret ∧ Clear secret tokenPlaceholder

theorem Balanced.noHomePath_of_apart {secrets : List Text}
    (h : Balanced homes (secrets.filter isWritten) text tail ps)
    (hap : ∀ secret ∈ secrets, secret ≠ [] ∧ Apart secret) : NoHomePath homes text := by
  have hn : redactSecrets (secrets.filter isWritten) text = text := by
    refine redactSecrets_of_none fun secret hin => ?_
    obtain ⟨hne, hsa⟩ := hap secret (mem_of_mem_filter hin)
    rcases hsa with ⟨c, hc, hcw⟩ | ⟨hop, hcl⟩
    · exact absurd (h.secret_written secret hin c hc) hcw
    · exact h.secret_absent rfl hin hne hop hcl
  have hh := h.noHomePath
  rwa [hn] at hh

end

/-! ## Reading back -/

section
variable {boundary : RedactionBoundary} {home : Home} {maxBytes : Nat} {input text tail : Text}

theorem byteLength_text_le (input : Text) (maxBytes : Nat) :
    byteLength (boundary.text input maxBytes) ≤ maxBytes := by
  rcases @text_cases boundary maxBytes input with hs | hf
  · rw [← hs.fixed]
    exact byteLength_truncateBytes_le _ _
  · rw [hf]
    exact byteLength_truncateBytes_le _ _

theorem redact_of_no_paths (hne : ∀ path ∈ (forHome home).homes, path ≠ [])
    (ht : NoTildePath text) (hh : NoHomePath (forHome home).homes text) :
    (forHome home).redact text = redactTokens text := by
  have hs : redactSecrets (forHome home).secrets text = text := rfl
  rw [RedactionBoundary.redact, hs, redactTildePaths_of_none ht, redactHomePaths_of_none hne hh]

theorem truncateBytes_full (h : byteLength text = maxBytes) (more : Text) :
    truncateBytes maxBytes (text ++ more) = text := by
  rw [truncateBytes_append h.le, h, Nat.sub_self]
  cases more with
  | nil => simp [truncateBytes]
  | cons c more =>
    have := c.utf8Size_pos
    rw [truncateBytes, if_neg (by omega), append_nil]

theorem settled_unsettledPlaceholder
    (hs : ∀ path ∈ (forHome home).homes, path.head? = some '/') :
    Settled (forHome home) maxBytes (truncateBytes maxBytes unsettledPlaceholder) := by
  obtain ⟨text, ht⟩ : ∃ text, text = truncateBytes maxBytes unsettledPlaceholder := ⟨_, rfl⟩
  have hc : text <+: unsettledPlaceholder := ht ▸ truncateBytes_isPrefix _ _
  have hf : byteLength text ≤ maxBytes := ht ▸ byteLength_truncateBytes_le _ _
  have hme : ∀ {c : Char}, c ∈ text → c ∈ unsettledPlaceholder := fun hin => hc.subset hin
  have hne : ∀ path ∈ (forHome home).homes, path ≠ [] := by
    rintro path hp rfl
    cases hs [] hp
  have hti : NoTildePath text := by
    intro front behind heq
    have : '~' ∈ unsettledPlaceholder := hme (by rw [heq]; simp)
    exact absurd this (by decide)
  have hh : NoHomePath (forHome home).homes text := by
    intro path hp front hso
    have hm := mark_of_stands (hs path hp) hso.stands
    have : '/' ∈ unsettledPlaceholder := hme (hm.subset (by simp))
    exact absurd this (by decide)
  have hto : ∀ n ≤ unsettledPlaceholder.length,
      redactTokens (unsettledPlaceholder.take n) = unsettledPlaceholder.take n := by decide
  rw [← ht]
  refine ⟨?_⟩
  rw [redact_of_no_paths hne hti hh, prefix_iff_eq_take.mp hc, hto _ hc.length_le,
    ← prefix_iff_eq_take.mp hc]
  have hw := truncateBytes_append hf []
  rwa [truncateBytes, append_nil] at hw

section
variable {secrets : List Text}
  (hs : ∀ path ∈ (forHome home).homes, path.head? = some '/')
include hs

theorem Settled.balanced (h : Settled ((forHome home).withSecrets secrets) maxBytes text) :
    ∃ tail ps, ((forHome home).withSecrets secrets).redact text = text ++ tail ∧
      Balanced (forHome home).homes
        (((forHome home).withSecrets secrets).secrets.filter isWritten) text tail ps := by
  obtain ⟨tail, ht⟩ := h.redact_eq
  obtain ⟨ps, hps, -⟩ := exists_balanced (fun path hp => .inl (mem_of_mem_head? (hs path hp))) ht
  exact ⟨tail, ps, ht, hps⟩

/-- What is settled with secrets is settled without them where no home path is found. -/
theorem Settled.without_iff (hby : byteLength text ≤ maxBytes)
    (h : Settled ((forHome home).withSecrets secrets) maxBytes text) :
    Settled (forHome home) maxBytes text ↔ NoHomePath (forHome home).homes text := by
  have hne : ∀ path ∈ (forHome home).homes, path ≠ [] := fun path hp =>
    ne_nil_of_mem (mem_of_mem_head? (hs path hp))
  constructor
  · intro hw
    have hw : Settled ((forHome home).withSecrets []) maxBytes text := hw
    obtain ⟨tail, ps, -, hps⟩ := hw.balanced hs
    exact hps.noHomePath
  · intro hnh
    obtain ⟨tail, ps, ht, hps⟩ := h.balanced hs
    refine ⟨?_⟩
    rw [redact_of_no_paths hne hps.no_tilde hnh]
    obtain ⟨⟨more, hm⟩, hw⟩ := hps.redactTokens_text
    rcases hw with hw | hcu
    · have hfi := truncateBytes_append hby []
      rw [truncateBytes, append_nil] at hfi
      rw [hw, hfi]
    · -- A token at the end is cut off, since the text may not be longer.
      obtain ⟨c, tail, rfl⟩ := exists_cons_of_ne_nil hcu
      have hf := h.fixed
      rw [ht] at hf
      have hr := truncateBytes_cut hf
      have hsi : written.all (fun c => c.utf8Size == 1) = true := by decide
      have hsz : c.utf8Size = 1 := by
        simpa using all_eq_true.mp hsi c (hps.tail_written c mem_cons_self)
      rw [hsz] at hr
      rw [← hm, truncateBytes_full (by omega)]

end

/-- What the boundary of a home directory and secrets returns is read back as it is. -/
def Stored (home : Home) (secrets : List Text) (input : Text) (maxBytes : Nat) : Prop :=
  (forHome home).text
      (((forHome home).withSecrets secrets).text input maxBytes) maxBytes =
    ((forHome home).withSecrets secrets).text input maxBytes

section
variable {secrets : List Text}
  (hs : ∀ path ∈ (forHome home).homes, path.head? = some '/')
include hs

theorem stored_iff : Stored home secrets input maxBytes ↔ Settled (forHome home)
    maxBytes (((forHome home).withSecrets secrets).text input maxBytes) := by
  constructor
  · intro h
    rw [Stored] at h
    rw [← h]
    rcases @text_cases (forHome home) maxBytes
      (((forHome home).withSecrets secrets).text input maxBytes) with hse | hf
    · exact hse
    · rw [hf]
      exact settled_unsettledPlaceholder hs
  · exact fun h => h.text_eq (escapeControls_of_plain (isControl_text input maxBytes))

theorem stored_of_noHomePath
    (h : Settled ((forHome home).withSecrets secrets) maxBytes
        (((forHome home).withSecrets secrets).text input maxBytes) →
      NoHomePath (forHome home).homes
        (((forHome home).withSecrets secrets).text input maxBytes)) :
    Stored home secrets input maxBytes := by
  rw [stored_iff hs]
  rcases text_cases input with hse | hf
  · exact (hse.without_iff hs (byteLength_text_le input maxBytes)).mpr (h hse)
  · rw [hf]
    exact settled_unsettledPlaceholder hs

end

end

end MacWorker.Redaction
