import MacWorker.Redaction.Stages

/-! # Texts that a redaction leaves as they are

A settled text is the beginning of its own redaction. Every character that is in no
placeholder goes through all stages, since there are never more of them than before. So no
path was replaced, nor any token but those made of the characters of placeholders, and of
these no long run: it would stand at fewer places afterwards. What is left are secrets, and
bearer tokens, which are written again as they were.

The text is compared with what the secrets have made of it. -/
namespace MacWorker.Redaction
open Splice List

/-- What is known of a settled text: the secrets that matter, and the pieces in which the
tokens are redacted. -/
structure Balanced (homes active : List Text) (text tail : Text) (ps : List (Piece Char)) :
    Prop where
  secret_written : ∀ secret ∈ active, ∀ c ∈ secret, c ∈ written
  noTildePath : NoTildePath (redactSecrets active text)
  noHomePath : NoHomePath homes (redactSecrets active text)
  trace : Trace (fun _ => tokenAt) [] ps
  input_eq : input ps = redactSecrets active text
  output_eq : output ps = text ++ tail
  tail_written : ∀ c ∈ tail, c ∈ written
  count_eq : ∀ c ∉ written, (redactSecrets active text).count c = text.count c
  bearer_found : ∀ qs found new rs, ps = qs ++ .replaced found new :: rs →
    ∃ value, found = bearer ++ ' ' :: value ∧ new = bearerToken ∧
      ∀ c ∈ (input rs).head?, isTokenRun c = false

theorem isBase64Body_token {c} (h : isBase64Body c = true) : c ≠ '[' ∧ c ≠ ']' ∧ c ≠ ' ' := by
  refine ⟨?_, ?_, ?_⟩
  · rintro rfl
    exact absurd h (by decide)
  · rintro rfl
    exact absurd h (by decide)
  · rintro rfl
    exact absurd h (by decide)

theorem clear_run {run} (hl : 6 ≤ run.length) (h : ∀ c ∈ run, isBase64Body c = true) :
    '[' ∉ run ∧ Clear run tokenPlaceholder := by
  have hop : '[' ∉ run := fun hin => (isBase64Body_token (h _ hin)).1 rfl
  have hc : ']' ∉ run := fun hin => (isBase64Body_token (h _ hin)).2.1 rfl
  refine ⟨hop, ?_⟩
  have hir : ¬ run <:+: ['t', 'o', 'k', 'e', 'n'] := by
    intro his
    have := his.length_le
    simp at this
    omega
  exact clear_of_ends hop hc (ne_nil_of_length_pos (by omega)) hir

theorem marked_of_shape {found new behind} (h : Shape found new behind) :
    Marked tokenPlaceholder found new := by
  cases h with
  | bearer value _ => exact ⟨bearer ++ [' '], ⟨value, by simp⟩, rfl⟩
  | run => exact ⟨[], nil_prefix, rfl⟩

/-- **A settled text is balanced.** -/
theorem exists_balanced {homes secrets} {text tail : Text}
    (hs : ∀ home ∈ homes, '/' ∈ home ∨ Absent home text)
    (h : redactTokens (redactHomePaths (redactTildePaths (redactSecrets secrets text)) homes) =
      text ++ tail) :
    ∃ ps, Balanced homes (secrets.filter isWritten) text tail ps ∧
      redactSecrets secrets text = redactSecrets (secrets.filter isWritten) text := by
  have hne : ∀ home ∈ homes, home ≠ [] := fun home hh =>
    (hs home hh).elim ne_nil_of_mem Absent.ne_nil
  set s₁ := redactSecrets secrets text
  set s₂ := redactTildePaths s₁
  set s₃ := redactHomePaths s₂ homes
  obtain ⟨ps, hps, hin, hou⟩ := exists_trace tokenAt_sound [] s₃
  have ha : output ps = text ++ tail := hou.trans h
  -- The stages have no more of a character than the one before, and in the end as many.
  have hb : ∀ c ∉ written, tail.count c = 0 ∧ s₁.count c = text.count c ∧
      s₂.count c = s₁.count c ∧ s₃.count c = s₂.count c ∧ (output ps).count c = s₃.count c := by
    intro c hc
    have hse : s₁.count c ≤ _ := count_redactSecrets_le hc secrets text
    have ht : s₂.count c ≤ _ := (rewrites_redactTildePaths s₁).count_le hc
    have hh : s₃.count c ≤ _ := (rewrites_redactHomePathsFrom _ s₂).count_le hc
    have hle : (output ps).count c ≤ s₃.count c := hou ▸ (rewrites_redactTokens s₃).count_le hc
    have hta : (output ps).count c = text.count c + tail.count c := by
      rw [ha, count_append]
    omega
  have hnt := noTildePath_of_count (hb '~' (by decide)).2.2.1
  have h₂ : s₂ = s₁ := redactTildePaths_of_none hnt
  have hab : ∀ home ∈ homes, '/' ∈ home ∨ Absent home s₂ := fun home hh =>
    (hs home hh).imp_right fun hn => (redactSecrets_keeps (fun hr h => h.rewrites hr) secrets
      hn).rewrites (rewrites_redactTildePaths s₁)
  have hnh := noHomePath_of_count hab (hb '/' (by decide)).2.2.2.1
  have h₃ : s₃ = s₂ := redactHomePaths_of_none hne hnh
  have hac : s₁ = _ := redactSecrets_eq fun c hc => (hb c hc).2.1
  rw [h₃] at hin hb
  rw [h₂] at hin hb hnh
  rw [hac] at hin hb hnt hnh
  have hw : ∀ secret ∈ secrets.filter isWritten, ∀ c ∈ secret, c ∈ written := by
    intro secret hsc c hc
    have := all_eq_true.mp (mem_filter.mp hsc).2 c hc
    simpa using this
  -- What is replaced is made of the characters of placeholders.
  have hsh : ∀ qs found new rs, ps = qs ++ .replaced found new :: rs →
      Shape found new (input rs) := by
    intro qs found new rs heq
    subst heq
    obtain ⟨hf, hhi⟩ := hps.hit_eq
    refine shape_of_written hf hhi fun c hc => ?_
    by_contra hot
    have hlt := count_output_lt (c := c) (fun f n hfn hcn => by
        obtain ⟨qs', rs', he'⟩ := append_of_mem hfn
        rw [he'] at hps
        exact hot (new_written hps.hit_eq.2 c hcn))
      (show .replaced found new ∈ qs ++ .replaced found new :: rs by simp) hc
    have hsa := (hb c hot).2.2.2.2
    rw [hin] at hlt
    omega
  have hm : ∀ found new, .replaced found new ∈ ps → Marked tokenPlaceholder found new := by
    intro found new hme
    obtain ⟨qs, rs, heq⟩ := append_of_mem hme
    exact marked_of_shape (hsh qs found new rs heq)
  refine ⟨ps, ⟨hw, hnt, hnh, hps, hin, ha, fun c hc => ?_,
    fun c hc => (hb c hc).2.1, fun qs found new rs heq => ?_⟩, hac⟩
  · by_contra hot
    have := (hb c hot).1
    exact absurd hc (count_eq_zero.mp this)
  · have hf := hsh qs found new rs heq
    cases hf with
    | bearer value _ hbe => exact ⟨value, rfl, rfl, hbe⟩
    | run hl hbo =>
      -- A long run stands at fewer places than before.
      exfalso
      obtain ⟨hop, hcl⟩ := clear_run (by omega) hbo
      rw [heq] at hm
      have hne : found ≠ [] := ne_nil_of_length_pos (by omega)
      have hlt : places found (output (qs ++ .replaced found ([] ++ tokenPlaceholder) :: rs)) <
          places found (input (qs ++ .replaced found ([] ++ tokenPlaceholder) :: rs)) :=
        places_output_lt (fun hn => hne (prefix_nil.mp hn)) hne nil_prefix hm rfl
          hop hcl (prefix_append found (input rs))
      have hse := places_redactSecrets_le hop hcl (secrets.filter isWritten) text
      have hmo : places found text ≤ places found (text ++ tail) := places_append_right _ _
      rw [nil_append, ← heq, ha, hin] at hlt
      omega

/-! ## Pieces that are bearer tokens -/

def Bearers (ps : List (Piece Char)) : Prop :=
  ∀ found new, .replaced found new ∈ ps → ∃ value, found = bearer ++ ' ' :: value ∧
    new = bearerToken

section
variable {ps qs rs : List (Piece Char)} {word : Text}

theorem Bearers.left (h : Bearers (qs ++ rs)) : Bearers qs :=
  fun found new hin => h found new (mem_append_left _ hin)

theorem Bearers.right (h : Bearers (qs ++ rs)) : Bearers rs :=
  fun found new hin => h found new (mem_append_right _ hin)

theorem Bearers.tail {p} (h : Bearers (p :: ps)) : Bearers ps :=
  fun found new hin => h found new (mem_cons_of_mem _ hin)

variable (h : Bearers ps)
include h

theorem Bearers.marked :
    ∀ found new, .replaced found new ∈ ps → Marked tokenPlaceholder found new := by
  intro found new hin
  obtain ⟨value, rfl, rfl⟩ := h found new hin
  exact ⟨bearer ++ [' '], ⟨value, by simp⟩, rfl⟩

theorem Bearers.start_input (hw : '[' ∉ word) (hs : word <+: output ps) : word <+: input ps :=
  prefix_output h.marked rfl hw hs

theorem Bearers.start_output (hw : ' ' ∉ word) (hs : word <+: input ps) : word <+: output ps := by
  induction ps generalizing word with
  | nil => exact hs
  | cons p ps ih =>
    cases p with
    | copied c =>
      cases word with
      | nil => exact nil_prefix
      | cons d word =>
        obtain ⟨rfl, hr⟩ := cons_prefix_cons.mp hs
        exact cons_prefix_cons.mpr ⟨rfl, ih h.tail (fun hin => hw (mem_cons_of_mem _ hin)) hr⟩
    | replaced found new =>
      obtain ⟨value, rfl, rfl⟩ := h found new mem_cons_self
      have hk : word <+: bearer :=
        prefix_of_head rfl hw (show word <+: bearer ++ ([' '] ++ (value ++ input ps)) by
          simpa using hs)
      refine hk.trans ⟨' ' :: (tokenPlaceholder ++ output ps), ?_⟩
      simp [bearerToken]

/-- What comes out at a place: a character that is copied, a bearer token, or a part of
one. -/
theorem Bearers.place {front behind} (hou : output ps = front ++ behind) (hne : behind ≠ []) :
    (∃ qs c rs, ps = qs ++ .copied c :: rs ∧ output qs = front ∧ behind = c :: output rs) ∨
    (∃ qs found rs, ps = qs ++ .replaced found bearerToken :: rs ∧ output qs = front ∧
      behind = bearerToken ++ output rs) ∨
    ∃ f g rest, bearerToken = f ++ g ∧ f ≠ [] ∧ g ≠ [] ∧ behind = g ++ rest := by
  rcases flatMap_split hou with
    ⟨qs, rs, rfl, hqs, hrs⟩ | ⟨qs, p, rs, f, g, rfl, hn, hf, hg, -, hb⟩
  · cases rs with
    | nil => exact absurd hrs.symm hne
    | cons p rs =>
      cases p with
      | copied c => exact .inl ⟨qs, c, rs, rfl, hqs, hrs.symm⟩
      | replaced found new =>
        obtain ⟨value, rfl, rfl⟩ := h found new (by simp)
        exact .inr (.inl ⟨qs, _, rs, rfl, hqs, hrs.symm⟩)
  · cases p with
    | copied c => simp [Piece.output, singleton_eq_append_iff, hf, hg] at hn
    | replaced found new =>
      obtain ⟨value, rfl, rfl⟩ := h found new (by simp)
      exact .inr (.inr ⟨f, g, output rs, hn, hf, hg, hb⟩)

theorem Bearers.copied_of_output {c} (hc : c ∉ bearerToken) {front behind}
    (hou : output ps = front ++ c :: behind) :
    ∃ qs rs, ps = qs ++ .copied c :: rs ∧ output qs = front ∧ output rs = behind := by
  rcases h.place hou (cons_ne_nil _ _) with ⟨qs, d, rs, hps, hqs, hb⟩ |
    ⟨qs, found, rs, hps, hqs, hb⟩ | ⟨f, g, rest, ht, hf, hg, hb⟩
  · obtain ⟨rfl, rfl⟩ := List.cons.inj hb
    exact ⟨qs, rs, hps, hqs, rfl⟩
  · have hh := congrArg List.head? hb
    cases hh
    exact absurd (by decide) hc
  · obtain ⟨d, g, rfl⟩ := exists_cons_of_ne_nil hg
    rw [cons_append] at hb
    obtain ⟨rfl, -⟩ := List.cons.inj hb
    rw [ht] at hc
    simp at hc

/-- A path may begin behind what goes in where it may behind what comes out. -/
theorem Bearers.pathTokenStart_input (hs : pathTokenStart (output ps).reverse = true) :
    pathTokenStart (input ps).reverse = true := by
  rcases eq_nil_or_concat ps with rfl | ⟨qs, p, rfl⟩
  · rfl
  · rw [concat_eq_append] at h hs ⊢
    cases p with
    | copied c => simpa [pathTokenStart] using hs
    | replaced found new =>
      -- A bearer token ends with a bracket, behind which no path begins.
      obtain ⟨value, rfl, rfl⟩ := h found new (by simp)
      simp [pathTokenStart, bearerToken, tokenPlaceholder] at hs
      exact absurd hs (by decide)

end

/-! ## Long runs -/

section
variable {rest body padding : Text} {e : Char}

/-- A long run that is no token goes on behind its padding. -/
theorem exists_of_base64TokenLen_none (h : base64TokenLen rest = none)
    (hl : 32 ≤ (rest.takeWhile isBase64Body).length) :
    ∃ padding e, rest.takeWhile isBase64Body ++ padding ++ [e] <+: rest ∧ padding ≠ [] ∧
      padding.length ≤ 2 ∧ (∀ c ∈ padding, c = '=') ∧ isBase64Body e = true := by
  obtain ⟨body, hb⟩ : ∃ body, body = rest.takeWhile isBase64Body := ⟨_, rfl⟩
  obtain ⟨padding, hp⟩ :
      ∃ padding, padding = ((rest.drop body.length).takeWhile (· == '=')).take 2 := ⟨_, rfl⟩
  have hst := base64_take hb hp
  rw [← hb] at hl ⊢
  have hn : (rest.drop (body.length + padding.length)).head?.any isBase64Body = true := by
    unfold base64TokenLen at h
    dsimp only at h
    rw [← hb, ← hp] at h
    split at h
    · cases h
    · rename_i hm
      cases hh : (rest.drop (body.length + padding.length)).head? with
      | none => simp [hh, hl] at hm
      | some d => simpa [hh, hl] using hm
  obtain ⟨after, ha⟩ := hst
  rw [← length_append, ← ha, List.drop_left] at hn
  cases after with
  | nil => cases hn
  | cons e after =>
    have he : isBase64Body e = true := by simpa using hn
    refine ⟨padding, e, ⟨after, by rw [← ha]; simp⟩, ?_, ?_, ?_, he⟩
    · -- Without padding the run would be longer.
      intro hni
      rw [hni, append_nil] at ha
      have hs := head_dropWhile (p := isBase64Body) rest
      have hr : rest.dropWhile isBase64Body = e :: after := by
        have hsp := @takeWhile_append_dropWhile _ isBase64Body rest
        rw [← hb] at hsp
        exact append_cancel_left (hsp.trans ha.symm)
      rw [hr] at hs
      rw [hs e rfl] at he
      cases he
    · rw [hp]
      exact length_take_le _ _
    · intro c hc
      rw [hp] at hc
      have := all_eq_true.mp all_takeWhile c (mem_of_mem_take hc)
      simpa using this

theorem takeWhile_stop {p : Char → Bool} {front behind : Text} {c : Char}
    (hf : ∀ c ∈ front, p c = true) (hc : p c = false) :
    (front ++ c :: behind).takeWhile p = front := by
  rw [takeWhile_append_of_pos hf, takeWhile_cons_of_neg (by simp [hc]), append_nil]

theorem base64TokenLen_of_goes_on (hb : ∀ c ∈ body, isBase64Body c = true) (hne : padding ≠ [])
    (hs : padding.length ≤ 2) (hp : ∀ c ∈ padding, c = '=')
    (he : isBase64Body e = true) (hst : body ++ padding ++ [e] <+: rest) :
    base64TokenLen rest = none := by
  obtain ⟨after, rfl⟩ := hst
  have heq : e ≠ '=' := by
    rintro rfl
    exact absurd he (by decide)
  have ht : (body ++ padding ++ [e] ++ after).takeWhile isBase64Body = body := by
    obtain ⟨c, tail, rfl⟩ := exists_cons_of_ne_nil hne
    have hc : isBase64Body c = false := by
      rw [hp c mem_cons_self]
      decide
    rw [append_assoc, append_assoc, cons_append]
    exact takeWhile_stop hb hc
  have hpa : ((body ++ padding ++ [e] ++ after).drop body.length).takeWhile (· == '=') =
      padding := by
    rw [append_assoc, append_assoc, List.drop_left]
    exact takeWhile_stop (fun c hc => by simp [hp c hc]) (by simp [heq])
  have hd : (body ++ padding ++ [e] ++ after).drop (body.length + padding.length) = e :: after := by
    rw [← length_append, append_assoc, List.drop_left]
    rfl
  unfold base64TokenLen
  dsimp only
  rw [ht, hpa, take_of_length_le hs, hd]
  simp [he]

theorem isHexToken_of_start {word behind c} (hc : c ∈ word) (hs : c.isAlphanum = false) :
    isHexToken (word ++ behind) = isHexToken word := by
  have hsa : (word ++ behind).takeWhile Char.isAlphanum = word.takeWhile Char.isAlphanum := by
    rw [takeWhile_append, if_neg]
    intro hl
    have ha : word.takeWhile Char.isAlphanum = word := (List.takeWhile_prefix _).eq_of_length hl
    rw [← ha] at hc
    have := all_eq_true.mp all_takeWhile c hc
    rw [hs] at this
    cases this
  unfold isHexToken
  rw [hsa]

end

/-! ## Tokens in a settled text -/

section
variable {homes active : List Text} {text tail front behind : Text} {ps qs rs : List (Piece Char)}
  {c : Char}

theorem Balanced.bearers (h : Balanced homes active text tail ps) : Bearers ps := by
  intro found new hin
  obtain ⟨qs, rs, heq⟩ := append_of_mem hin
  obtain ⟨value, hf, hn, -⟩ := h.bearer_found qs found new rs heq
  exact ⟨value, hf, hn⟩

/-- A secret that is clear of the placeholder of a token stands nowhere in the text. -/
theorem Balanced.secret_absent (h : Balanced homes active text tail ps) {secrets secret}
    (ha : redactSecrets secrets text = redactSecrets active text) (hin : secret ∈ secrets)
    (hne : secret ≠ []) (hop : '[' ∉ secret) (hc : Clear secret tokenPlaceholder) :
    ¬ secret <:+: text := by
  intro hs
  have hlt := places_redactSecrets_lt hin hne hop hc hs
  have hle : places secret (output ps) ≤ places secret (input ps) :=
    places_output_le h.bearers.marked rfl hop hc
  have hm : places secret text ≤ places secret (text ++ tail) := places_append_right _ _
  rw [h.output_eq, h.input_eq, ← ha] at hle
  omega

theorem Balanced.found_written (h : Balanced homes active text tail ps) (hc : c ∉ written) :
    ∀ found new, .replaced found new ∈ ps → c ∉ found ∧ c ∉ new := by
  have hn : ∀ found new, .replaced found new ∈ ps → c ∉ new := by
    intro found new hin hm
    obtain ⟨value, -, rfl⟩ := h.bearers found new hin
    exact hc (mem_written_of_bearer hm)
  intro found new hin
  refine ⟨fun hm => ?_, hn found new hin⟩
  have hlt := count_output_lt hn hin hm
  rw [h.output_eq, h.input_eq, count_append, h.count_eq c hc] at hlt
  omega

/-- A text that ends with such a character ends with it when the secrets are out, and
nothing comes out behind it. -/
theorem Balanced.copied_last (h : Balanced homes active text tail (qs ++ .copied c :: rs))
    (hc : c ∉ written) (hl : text = output qs ++ [c]) : rs = [] ∧ tail = [] := by
  have hs : ∀ secret ∈ active, c ∉ secret := fun secret hs hin =>
    hc (h.secret_written secret hs c hin)
  have hb : output rs = tail := by
    have hou := h.output_eq
    rw [hl, output_append, output_copied] at hou
    simpa using hou
  have hn : c ∉ input rs := by
    rw [← count_eq_zero, ← count_output_eq fun found new hin =>
      h.found_written hc found new (by simp [hin]), hb, count_eq_zero]
    exact fun hin => hc (h.tail_written c hin)
  have hem : input rs = [] := by
    have hin := h.input_eq
    have hsp := redactSecrets_split hs (output qs) []
    rw [redactSecrets_nil] at hsp
    rw [hl, hsp, input_append, input_copied] at hin
    rcases eq_nil_or_concat (input rs) with hni | ⟨front, d, hf⟩
    · exact hni
    · rw [hf, concat_eq_append, ← cons_append, ← append_assoc] at hin
      obtain ⟨-, hd⟩ := append_inj' hin rfl
      rw [hf, concat_eq_append, singleton_inj.mp hd] at hn
      simp at hn
  have hrs : rs = [] := by
    cases rs with
    | nil => rfl
    | cons p rs =>
      cases p with
      | copied d => cases hem
      | replaced found new =>
        obtain ⟨value, rfl, -⟩ := h.bearers found new (by simp)
        cases hem
  rw [hrs] at hb
  exact ⟨hrs, hb.symm⟩

theorem not_mem_keyword {keyword : Text} (h : keyword.map Char.toLower = bearer.map Char.toLower) :
    '[' ∉ keyword := by
  intro hin
  have hl : Char.toLower '[' ∈ bearer.map Char.toLower := by
    rw [← h]
    exact mem_map_of_mem hin
  exact absurd hl (by decide)

theorem mem_tail_of_part {f g d} (h : bearerToken = f ++ d :: g) (hf : f ≠ []) :
    d ∈ bearerToken.tail := by
  obtain ⟨e, f, rfl⟩ := exists_cons_of_ne_nil hf
  rw [h, cons_append, tail_cons]
  simp

/-- Every bearer token that comes out is a placeholder. -/
theorem Balanced.bearer_place (h : Balanced homes active text tail ps)
    (heq : text ++ tail = front ++ behind) (hbr : isBearer behind = true) :
    ∃ rest, behind = bearerToken ++ rest ∧ ∀ c ∈ rest.head?, isTokenRun c = false := by
  obtain ⟨keyword, space, after, hbe, hsi, hk, hs⟩ := isBearer_iff.mp hbr
  have hne : behind ≠ [] := by
    rw [hbe]
    simp
  rcases h.bearers.place (h.output_eq.trans heq) hne with ⟨qs, c, rs, rfl, -, hb⟩ |
    ⟨qs, found, rs, rfl, -, hb⟩ | ⟨f, g, rest, ht, hf, hg, hb⟩
  · exfalso
    -- The keyword would have been found.
    have hop : '[' ∉ keyword ++ [space] := by
      rw [mem_append, mem_singleton]
      rintro (hin | rfl)
      · exact not_mem_keyword hk hin
      · exact absurd hs (by decide)
    have hst : keyword ++ [space] <+: output (.copied c :: rs) := by
      rw [output_copied, ← hb, hbe]
      exact ⟨after, by simp⟩
    obtain ⟨after', hin⟩ := h.bearers.right.start_input hop hst
    have hm := (tokenAt_none h.trace.missed).1
    rw [← input_copied, ← hin, append_assoc, singleton_append,
      isBearer_iff.mpr ⟨keyword, space, after', rfl, hsi, hk, hs⟩] at hm
    cases hm
  · refine ⟨output rs, hb, ?_⟩
    obtain ⟨value, -, -, hr⟩ := h.bearer_found qs found bearerToken rs rfl
    cases rs with
    | nil => exact nofun
    | cons p rs =>
      cases p with
      | copied d => exact hr
      | replaced other new =>
        obtain ⟨value', rfl, -⟩ := h.bearers other new (by simp)
        exact absurd (hr 'B' rfl) (by decide)
  · exfalso
    obtain ⟨d, g, rfl⟩ := exists_cons_of_ne_nil hg
    have hl : bearerToken.tail.all (fun d => d.toLower != 'b') = true := by decide
    have hle : d.toLower ≠ 'b' := by
      simpa using all_eq_true.mp hl d (mem_tail_of_part ht hf)
    refine hle ?_
    obtain ⟨e, keyword, rfl⟩ := exists_cons_of_ne_nil
      (ne_nil_of_length_pos (by omega : 0 < keyword.length))
    rw [hb, cons_append, cons_append] at hbe
    obtain ⟨rfl, -⟩ := List.cons.inj hbe
    rw [map_cons] at hk
    exact (List.cons.inj hk).1

theorem isSk_iff {rest} : isSk rest = true ↔ ∃ bytes, skToken ++ bytes <+: rest ∧
    8 ≤ bytes.length ∧ ∀ c ∈ bytes, isSkByte c = true := by
  unfold isSk
  rw [Bool.and_eq_true, isPrefixOf_iff_prefix, decide_eq_true_eq]
  constructor
  · rintro ⟨⟨behind, rfl⟩, hl⟩
    rw [List.drop_left] at hl
    exact ⟨_, (prefix_append_right_inj _).mpr (List.takeWhile_prefix _), hl,
      all_eq_true.mp all_takeWhile⟩
  · rintro ⟨bytes, ⟨behind, rfl⟩, hl, hb⟩
    refine ⟨⟨bytes ++ behind, by simp⟩, ?_⟩
    rw [append_assoc, List.drop_left, takeWhile_append_of_pos hb, length_append]
    omega

theorem Balanced.no_sk (h : Balanced homes active text tail ps) (heq : text = front ++ behind) :
    isSk behind = false := by
  rw [Bool.eq_false_iff]
  intro hsk
  obtain ⟨bytes, hs, hl, hb⟩ := isSk_iff.mp hsk
  obtain ⟨after, ha⟩ := hs
  have hou : output ps = front ++ 's' :: (['k', '-'] ++ bytes ++ (after ++ tail)) := by
    rw [h.output_eq, heq, ← ha]
    simp [skToken]
  obtain ⟨qs, rs, rfl, -, hrs⟩ := h.bearers.copied_of_output (by decide) hou
  have hop : '[' ∉ ['k', '-'] ++ bytes := by
    rw [mem_append]
    rintro (hin | hin)
    · exact absurd hin (by decide)
    · exact absurd (hb _ hin) (by decide)
  have hin := h.bearers.right.tail.start_input hop (hrs ▸ prefix_append _ _)
  have hm := (tokenAt_none h.trace.missed).2.1
  rw [isSk_iff.mpr ⟨bytes, cons_prefix_cons.mpr ⟨rfl, hin⟩, hl, hb⟩] at hm
  cases hm

theorem Balanced.no_tilde (h : Balanced homes active text tail ps) : NoTildePath text := by
  intro front behind heq hs
  have hou : output ps = front ++ '~' :: (behind ++ tail) := by
    rw [h.output_eq, heq]
    simp
  obtain ⟨qs, rs, rfl, hqs, hrs⟩ := h.bearers.copied_of_output (by decide) hou
  have hn := h.noTildePath (input qs) (input rs) (by rw [← h.input_eq]; simp) ?_
  · rw [Bool.eq_false_iff]
    intro hsl
    refine absurd hn ?_
    rw [Bool.not_eq_false]
    cases behind with
    | nil =>
      rw [(h.copied_last (by decide) (by rw [heq, hqs])).1]
      rfl
    | cons c behind =>
      obtain rfl : c = '/' := by simpa using hsl
      have hin : ['/'] <+: input rs :=
        h.bearers.right.tail.start_input (by decide) ⟨behind ++ tail, hrs.symm⟩
      obtain ⟨after, ha⟩ := hin
      rw [← ha]
      rfl
  · exact h.bearers.left.pathTokenStart_input (hqs ▸ hs)

theorem short_of_part {f g rest run : Text} (ht : bearerToken = f ++ g) (hg : g ≠ [])
    (hr : run <+: g ++ rest) (hc : ']' ∉ run) : run.length < 32 := by
  rcases eq_nil_or_concat g with hn | ⟨g', d, rfl⟩
  · exact absurd hn hg
  · rw [concat_eq_append] at ht hr
    have hen : bearerToken = bearer ++ [' ', '[', 't', 'o', 'k', 'e', 'n'] ++ [']'] := rfl
    rw [hen, ← append_assoc] at ht
    obtain ⟨hf, hd⟩ := append_inj' ht rfl
    obtain rfl := singleton_inj.mp hd
    rw [append_assoc] at hr
    have hl := (prefix_of_head rfl hc hr).length_le
    have hp := congrArg List.length hf
    simp only [bearer, length_append, length_cons, length_nil] at hp
    omega

section
variable (h : Balanced homes active text tail ps) (heq : text = front ++ behind)
include h heq

/-- The padding of a run is not cut off, nor is the text cut right behind it. -/
theorem Balanced.padding_inside {body padding e} (hne : padding ≠ [])
    (hp : ∀ c ∈ padding, c = '=') (hs : body ++ padding ++ [e] <+: behind ++ tail) :
    body ++ padding ++ [e] <+: behind := by
  rcases eq_nil_or_concat padding with hn | ⟨padding', d, rfl⟩
  · exact absurd hn hne
  · obtain rfl : d = '=' := hp d (by simp)
    rw [concat_eq_append, ← append_assoc] at hs ⊢
    rcases prefix_or_prefix_of_prefix hs (prefix_append behind tail) with hin | hin
    · exact hin
    · rcases prefix_concat_iff.mp hin with hsa | hin
      · rw [hsa]
      · -- What is cut off has no padding.
        exfalso
        obtain ⟨more, hm⟩ := hin
        rw [← hm, append_assoc, prefix_append_right_inj] at hs
        rcases eq_nil_or_concat more with rfl | ⟨more', d, rfl⟩
        · rw [append_nil] at hm
          have hou : output ps = front ++ (body ++ padding') ++ '=' :: tail := by
            rw [h.output_eq, heq, hm]
            simp
          obtain ⟨qs, rs, rfl, hqs, -⟩ := h.bearers.copied_of_output (by decide) hou
          have hn := (h.copied_last (by decide) (by rw [heq, hm, hqs]; simp)).2
          rw [hn] at hs
          simp at hs
        · rw [concat_eq_append, ← append_assoc] at hm
          obtain ⟨-, hd⟩ := append_inj' hm rfl
          rw [concat_eq_append, singleton_inj.mp hd] at hs
          have hme := h.tail_written '=' (hs.subset (by simp))
          exact absurd hme (by decide)

/-- A run of the length of a token goes on behind its padding, and did so before. -/
theorem Balanced.run_goes_on (hl : 32 ≤ (behind.takeWhile isBase64Body).length) :
    isHexToken behind = false ∧ base64TokenLen behind = none := by
  obtain ⟨run, hr⟩ : ∃ run, run = behind.takeWhile isBase64Body := ⟨_, rfl⟩
  rw [← hr] at hl
  have hbo : ∀ c ∈ run, isBase64Body c = true := by
    rw [hr]
    exact all_eq_true.mp all_takeWhile
  have hc : ']' ∉ run := fun hin => (isBase64Body_token (hbo _ hin)).2.1 rfl
  have hs : run <+: behind ++ tail := by
    rw [hr]
    exact (List.takeWhile_prefix _).trans (prefix_append _ _)
  have hne : behind ++ tail ≠ [] := by
    intro hn
    rw [hn, prefix_nil] at hs
    rw [hs] at hl
    cases hl
  have hou : output ps = front ++ (behind ++ tail) := by
    rw [h.output_eq, heq, append_assoc]
  rcases h.bearers.place hou hne with ⟨qs, c, rs, rfl, hqs, hb⟩ |
    ⟨qs, found, rs, rfl, -, hb⟩ | ⟨f, g, rest, ht, hf, hg, hb⟩
  · obtain ⟨x, hx⟩ : ∃ x, x = input (.copied c :: rs) := ⟨_, rfl⟩
    have hop : '[' ∉ run := fun hin => (isBase64Body_token (hbo _ hin)).1 rfl
    have hin : run <+: x := hx ▸ h.bearers.right.start_input hop (by
      rw [output_copied, ← hb]
      exact hs)
    obtain ⟨-, -, hh, hba⟩ := tokenAt_none h.trace.missed
    rw [← input_copied, ← hx] at hh hba
    have hlo : 32 ≤ (x.takeWhile isBase64Body).length := by
      obtain ⟨after, rfl⟩ := hin
      rw [takeWhile_append_of_pos hbo, length_append]
      omega
    obtain ⟨padding, e, hgo, hpn, hsh, hp, he⟩ := exists_of_base64TokenLen_none hba hlo
    obtain ⟨body, hbd⟩ : ∃ body, body = x.takeWhile isBase64Body := ⟨_, rfl⟩
    rw [← hbd] at hgo
    have hby : ∀ c ∈ body, isBase64Body c = true := by
      rw [hbd]
      exact all_eq_true.mp all_takeWhile
    -- The run, its padding and the character behind come out as they went in.
    have hbl : ' ' ∉ body ++ padding ++ [e] := by
      simp only [mem_append, mem_singleton]
      rintro ((hin | hin) | rfl)
      · exact (isBase64Body_token (hby _ hin)).2.2 rfl
      · exact absurd (hp _ hin) (by decide)
      · exact absurd he (by decide)
    have hgn : body ++ padding ++ [e] <+: behind ++ tail := by
      rw [hb, ← output_copied]
      exact h.bearers.right.start_output hbl (hx ▸ hgo)
    have ha : body ++ padding ++ [e] <+: behind := h.padding_inside heq hpn hp hgn
    obtain ⟨d, padding', hd⟩ := exists_cons_of_ne_nil hpn
    have hel : d = '=' := hp d (by rw [hd]; exact mem_cons_self)
    refine ⟨?_, base64TokenLen_of_goes_on hby hpn hsh hp he ha⟩
    obtain ⟨after, rfl⟩ := ha
    obtain ⟨after', ha'⟩ := hgo
    have hm : '=' ∈ body ++ padding ++ [e] := by simp [hd, hel]
    rw [isHexToken_of_start hm (by decide), ← hh, ← ha', isHexToken_of_start hm (by decide)]
  · have hsh := short_of_part (f := []) rfl (by decide) (hb ▸ hs) hc
    omega
  · have hsh := short_of_part ht hg (hb ▸ hs) hc
    omega

theorem Balanced.no_run : isHexToken behind = false ∧ base64TokenLen behind = none := by
  by_cases hl : 32 ≤ (behind.takeWhile isBase64Body).length
  · exact h.run_goes_on heq hl
  · refine ⟨?_, ?_⟩
    · have hle : (behind.takeWhile Char.isAlphanum).length ≤
          (behind.takeWhile isBase64Body).length := by
        obtain ⟨run, hr⟩ : ∃ run, run = behind.takeWhile Char.isAlphanum := ⟨_, rfl⟩
        have hb : ∀ c ∈ run, isBase64Body c = true := by
          intro c hc
          rw [hr] at hc
          have := all_eq_true.mp all_takeWhile c hc
          simp [isBase64Body, this]
        obtain ⟨after, ha⟩ : run <+: behind := hr ▸ takeWhile_prefix _
        rw [← hr, ← ha, takeWhile_append_of_pos hb, length_append]
        omega
      have hs : ¬ 32 ≤ (behind.takeWhile Char.isAlphanum).length := by omega
      simp [isHexToken, hs]
    · simp [base64TokenLen, hl]

/-- The bearer tokens of a settled text are placeholders, the last of which may be cut
off. -/
theorem Balanced.bearer_text (hb : isBearer behind = true) :
    (∃ rest, behind = bearerToken ++ rest ∧ ∀ c ∈ rest.head?, isTokenRun c = false) ∨
      behind <+: bearerToken ∧ behind ≠ bearerToken ∧ tail ≠ [] := by
  have hw : isBearer (behind ++ tail) = true := by
    obtain ⟨keyword, space, after, rfl, hr⟩ := isBearer_iff.mp hb
    exact isBearer_iff.mpr ⟨keyword, space, after ++ tail, by simp, hr⟩
  obtain ⟨rest, hr, hru⟩ := h.bearer_place (by rw [heq, append_assoc]) hw
  rcases append_eq_append_iff.mp hr with ⟨part, ht, hta⟩ | ⟨rest', hbe, hr'⟩
  · cases part with
    | nil =>
      rw [append_nil] at ht
      exact .inl ⟨[], by rw [ht, append_nil], nofun⟩
    | cons c part =>
      refine .inr ⟨⟨c :: part, ht.symm⟩, ?_, ?_⟩
      · rw [ht]
        simp
      · rw [hta]
        simp
  · refine .inl ⟨rest', hbe, fun c hc => hru c ?_⟩
    cases rest' with
    | nil => cases hc
    | cons d rest' =>
      rw [hr']
      exact hc

end

theorem tokenAt_bearerToken {rest} (h : ∀ c ∈ rest.head?, isTokenRun c = false) :
    tokenAt (bearerToken ++ rest) = some (bearerToken.length, bearerToken) := by
  have hb : behindBearer (bearerToken ++ rest) = rest := by
    have hr : skipTokenRun rest = rest := by
      cases rest with
      | nil => rfl
      | cons c rest => exact dropWhile_cons_of_neg (by simp [h c rfl])
    have hbl : ((bearerToken ++ rest).drop bearer.length).dropWhile isWhitespace =
        tokenPlaceholder ++ rest := rfl
    rw [behindBearer, hbl, stripPlaceholder, if_pos (prefix_append _ _), List.drop_left, hr]
  have hbe : isBearer (bearerToken ++ rest) = true :=
    isBearer_iff.mpr ⟨bearer, ' ', tokenPlaceholder ++ rest, rfl, rfl, rfl, by decide⟩
  rw [tokenAt, if_pos hbe, hb, length_append, Nat.add_sub_cancel]
  rfl

/-- A bearer token that is cut off is completed. -/
theorem tokenAt_cut {rest} (h : rest <+: bearerToken) (hb : isBearer rest = true) :
    tokenAt rest = some (rest.length, bearerToken) := by
  have hc : ∀ n ≤ bearerToken.length, isBearer (bearerToken.take n) = true →
      tokenAt (bearerToken.take n) = some ((bearerToken.take n).length, bearerToken) := by decide
  obtain ⟨n, hn, rfl⟩ : ∃ n ≤ bearerToken.length, bearerToken.take n = rest :=
    ⟨rest.length, h.length_le, (prefix_iff_eq_take.mp h).symm⟩
  exact hc n hn hb

/-- **The tokens of a settled text are redacted**, up to a last one that is cut off. -/
theorem Balanced.redactTokens_text (h : Balanced homes active text tail ps) :
    text <+: redactTokens text ∧ (redactTokens text = text ∨ tail ≠ []) := by
  obtain ⟨qs, hqs, hin, hou⟩ := exists_trace tokenAt_sound [] text
  rw [redactTokens, ← hou]
  suffices ha : ∀ before front rs, Trace (fun _ => tokenAt) before rs → text = front ++ input rs →
      input rs <+: output rs ∧ (output rs = input rs ∨ tail ≠ []) by
    have := ha [] [] qs hqs (by rw [hin]; rfl)
    rwa [hin] at this
  intro before front rs hrs
  induction hrs generalizing front with
  | nil => exact fun _ => ⟨prefix_rfl, .inl rfl⟩
  | @copied before c rs hm _ ih =>
    intro heq
    obtain ⟨hst, hs⟩ := ih (front ++ [c]) (by rw [heq]; simp)
    refine ⟨cons_prefix_cons.mpr ⟨rfl, hst⟩, hs.imp_left fun hs => ?_⟩
    rw [output_copied, input_copied, hs]
  | @replaced before found new rs hne hh _ ih =>
    intro heq
    rw [input_replaced] at heq
    have hno := h.no_sk heq
    obtain ⟨hhe, hba⟩ := h.no_run heq
    have hb : isBearer (found ++ input rs) = true := by
      rcases tokenAt_cases hh with ⟨hb, -⟩ | ⟨hsk, -⟩ | ⟨hh', -⟩ | ⟨hb', -⟩
      · exact hb
      · cases hno.symm.trans hsk
      · cases hhe.symm.trans hh'
      · cases hba.symm.trans hb'
    rcases h.bearer_text heq hb with ⟨rest, hr, hru⟩ | ⟨hc, hne', ht⟩
    · rw [hr, tokenAt_bearerToken hru] at hh
      obtain ⟨hl, rfl⟩ := Prod.mk.inj (Option.some.inj hh)
      obtain ⟨rfl, rfl⟩ := append_inj hr hl.symm
      obtain ⟨hst, hs⟩ := ih (front ++ bearerToken) (by rw [heq, append_assoc])
      refine ⟨?_, hs.imp_left fun hs => ?_⟩
      · rw [input_replaced, output_replaced]
        exact (prefix_append_right_inj _).mpr hst
      · rw [input_replaced, output_replaced, hs]
    · rw [tokenAt_cut hc hb] at hh
      obtain ⟨-, rfl⟩ := Prod.mk.inj (Option.some.inj hh)
      refine ⟨?_, .inr ht⟩
      rw [input_replaced, output_replaced]
      exact hc.trans (prefix_append _ _)

end

end MacWorker.Redaction
