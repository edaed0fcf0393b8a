import MacWorker.Lib.Search
import MacWorker.Redaction.Boundary

/-! # What each stage of a redaction may do

A stage copies characters and writes placeholders. A character that no placeholder has is
never written, so there are never more of it than before. What a stage takes away always
has such a character, except for secrets and tokens that are made of the characters of
placeholders alone. -/
namespace MacWorker.Redaction
open List hiding replace replace_nil
open Splice

def written : Text := tokenPlaceholder ++ pathPlaceholder ++ bearer ++ [' ']

def bearerToken : Text := bearer ++ [' '] ++ tokenPlaceholder

theorem mem_written_of_token {c} (h : c ∈ tokenPlaceholder) : c ∈ written := by
  simp [written, h]

theorem mem_written_of_path {c} (h : c ∈ pathPlaceholder) : c ∈ written := by
  simp [written, h]

theorem mem_written_of_bearer {c} (h : c ∈ bearerToken) : c ∈ written := by
  simp only [bearerToken, written, mem_append] at h ⊢
  rcases h with (h | h) | h
  · exact .inl (.inr h)
  · exact .inr h
  · exact .inl (.inl (.inl h))

/-! ## Placeholders for stretches -/

def placeholders : List Text := [tokenPlaceholder, pathPlaceholder, bearerToken]

/-- A text, and what it is with stretches of it replaced by placeholders. -/
def Rewrites (text text' : Text) : Prop :=
  ∃ ps, input ps = text ∧ output ps = text' ∧
    ∀ found new, .replaced found new ∈ ps → new ∈ placeholders

/-- A text that cannot come to hold a word: a character of it is missing, or it does not
hold the word and the word is clear of the placeholders. -/
def Absent (word text : Text) : Prop :=
  (∃ c ∉ written, text.count c < word.count c) ∨
    ¬ word <:+: text ∧ ∀ put ∈ placeholders, Clear word put

section
variable {text text' word : Text} {c : Char}

theorem Rewrites.refl : Rewrites text text :=
  ⟨text.map .copied, by simp [input, flatMap_map, Piece.input],
    by simp [output, flatMap_map, Piece.output], by simp⟩

theorem Rewrites.count_le (h : Rewrites text text') (hc : c ∉ written) :
    text'.count c ≤ text.count c := by
  obtain ⟨ps, rfl, rfl, hp⟩ := h
  refine count_output_le fun found new hin hm => hc ?_
  have := hp found new hin
  simp only [placeholders, mem_cons, not_mem_nil, or_false] at this
  rcases this with rfl | rfl | rfl
  · exact mem_written_of_token hm
  · exact mem_written_of_path hm
  · exact mem_written_of_bearer hm

theorem Absent.not_infix (h : Absent word text) : ¬ word <:+: text := by
  rcases h with ⟨c, -, hlt⟩ | ⟨hn, -⟩
  · exact fun hs => absurd (hs.sublist.count_le c) (by omega)
  · exact hn

theorem Absent.ne_nil (h : Absent word text) : word ≠ [] := by
  rintro rfl
  exact h.not_infix nil_infix

theorem Absent.part (h : Absent word text) (hs : text' <:+: text) : Absent word text' := by
  rcases h with ⟨c, hc, hlt⟩ | ⟨hn, hcl⟩
  · exact .inl ⟨c, hc, (hs.sublist.count_le c).trans_lt hlt⟩
  · exact .inr ⟨fun hw => hn (hw.trans hs), hcl⟩

theorem Absent.rewrites (h : Absent word text) (hr : Rewrites text text') : Absent word text' := by
  have hw := h.ne_nil
  rcases h with ⟨c, hc, hlt⟩ | ⟨hn, hcl⟩
  · exact .inl ⟨c, hc, (hr.count_le hc).trans_lt hlt⟩
  · obtain ⟨ps, rfl, rfl, hp⟩ := hr
    exact .inr ⟨fun hs => hn (infix_output hw (fun found new hin => hcl new (hp found new hin)) hs),
      hcl⟩

end

/-! ## Secrets -/

section
variable {c : Char}

theorem rewrites_replace (text secret : Text) :
    Rewrites text (replace text secret tokenPlaceholder) := by
  by_cases hs : secret = []
  · rw [replace, if_pos hs]
    exact .refl
  · obtain ⟨ps, -, hin, hou, ha⟩ := exists_replace_trace hs tokenPlaceholder text
    refine ⟨ps, hin, hou, fun found new hm => ?_⟩
    rw [(ha found new hm).2]
    decide

theorem count_replace_le (hc : c ∉ written) (text secret : Text) :
    (replace text secret tokenPlaceholder).count c ≤ text.count c :=
  (rewrites_replace text secret).count_le hc

theorem redactSecrets_cons (secret : Text) (secrets : List Text) (text : Text) :
    redactSecrets (secret :: secrets) text =
      redactSecrets secrets (replace text secret tokenPlaceholder) := rfl

theorem redactSecrets_keeps {P : Text → Prop} (hp : ∀ {x y}, Rewrites x y → P x → P y)
    (secrets : List Text) {text} (h : P text) : P (redactSecrets secrets text) := by
  induction secrets generalizing text with
  | nil => exact h
  | cons secret secrets ih => exact ih (hp (rewrites_replace text secret) h)

theorem count_redactSecrets_le (hc : c ∉ written) (secrets : List Text) (text : Text) :
    (redactSecrets secrets text).count c ≤ text.count c :=
  redactSecrets_keeps (P := fun x => x.count c ≤ text.count c)
    (fun hr h => (hr.count_le hc).trans h) secrets le_rfl

theorem redactSecrets_of_none {secrets text} (h : ∀ secret ∈ secrets, ¬ secret <:+: text) :
    redactSecrets secrets text = text := by
  induction secrets with
  | nil => rfl
  | cons secret secrets ih =>
    rw [redactSecrets_cons, replace_of_absent (h secret mem_cons_self),
      ih fun other hin => h other (mem_cons_of_mem _ hin)]

theorem not_infix_of_count {text secret} (hc : c ∉ written) (hin : c ∈ secret)
    (h : (replace text secret tokenPlaceholder).count c = text.count c) : ¬ secret <:+: text := by
  rintro ⟨front, behind, ht⟩
  rw [append_assoc] at ht
  have hs : secret ≠ [] := ne_nil_of_mem hin
  obtain ⟨ps, hps, rfl, hou, ha⟩ := exists_replace_trace hs tokenPlaceholder text
  obtain ⟨qs, found, new, rs, rfl, -⟩ := hps.replaced_at hs ht.symm
  obtain ⟨rfl, rfl⟩ := ha found new (by simp)
  have hlt := count_output_lt (fun f n hfn hcn => hc (mem_written_of_token
    ((ha f n hfn).2 ▸ hcn))) (mem_append_right _ mem_cons_self) hin
  rw [hou] at hlt
  omega

def isWritten (secret : Text) : Bool := secret.all (written.contains ·)

/-- Where no character is lost, only secrets made of the characters of placeholders were
replaced. -/
theorem redactSecrets_eq {secrets text}
    (h : ∀ c ∉ written, (redactSecrets secrets text).count c = text.count c) :
    redactSecrets secrets text = redactSecrets (secrets.filter isWritten) text := by
  induction secrets generalizing text with
  | nil => rfl
  | cons secret secrets ih =>
    have hs : ∀ c ∉ written, (replace text secret tokenPlaceholder).count c = text.count c ∧
        (redactSecrets secrets (replace text secret tokenPlaceholder)).count c =
          (replace text secret tokenPlaceholder).count c := by
      intro c hc
      have ha := h c hc
      have hf := count_replace_le hc text secret
      have hr := count_redactSecrets_le hc secrets (replace text secret tokenPlaceholder)
      rw [redactSecrets_cons] at ha
      omega
    have hr := ih fun c hc => (hs c hc).2
    by_cases hw : isWritten secret = true
    · rw [filter_cons_of_pos hw]
      exact hr
    · rw [filter_cons_of_neg hw]
      -- It has another character, which was not lost.
      simp only [isWritten, all_eq_true, contains_iff_mem, not_forall] at hw
      obtain ⟨c, hin, hc⟩ := hw
      have hsa := @replace_of_absent _ _ _ tokenPlaceholder _
        (not_infix_of_count hc hin (hs c hc).1)
      rw [redactSecrets_cons, hr, hsa]

theorem redactSecrets_split {secrets} (hc : ∀ secret ∈ secrets, c ∉ secret) (front behind : Text) :
    redactSecrets secrets (front ++ c :: behind) =
      redactSecrets secrets front ++ c :: redactSecrets secrets behind := by
  induction secrets generalizing front behind with
  | nil => rfl
  | cons secret secrets ih =>
    simp only [redactSecrets_cons]
    rw [replace_split (hc secret mem_cons_self), ih fun s hs => hc s (mem_cons_of_mem _ hs)]

@[simp] theorem redactSecrets_nil (secrets : List Text) : redactSecrets secrets [] = [] := by
  induction secrets with
  | nil => rfl
  | cons secret secrets ih =>
    rw [redactSecrets_cons, replace_nil, ih]

theorem places_redactSecrets_le {word : Text} (h : '[' ∉ word) (hc : Clear word tokenPlaceholder)
    (secrets : List Text) (text : Text) :
    places word (redactSecrets secrets text) ≤ places word text := by
  induction secrets generalizing text with
  | nil => exact le_rfl
  | cons secret secrets ih =>
    rw [redactSecrets_cons]
    refine (ih _).trans ?_
    by_cases hs : secret = []
    · rw [replace, if_pos hs]
    · obtain ⟨ps, -, rfl, hou, ha⟩ := exists_replace_trace hs tokenPlaceholder text
      rw [← hou]
      refine places_output_le (fun found new hin => ?_) rfl h hc
      obtain ⟨-, rfl⟩ := ha found new hin
      exact ⟨[], nil_prefix, rfl⟩

theorem places_redactSecrets_lt {secrets} {secret text : Text} (hin : secret ∈ secrets)
    (hne : secret ≠ []) (hop : '[' ∉ secret)
    (hc : Clear secret tokenPlaceholder) (h : secret <:+: text) :
    places secret (redactSecrets secrets text) < places secret text := by
  induction secrets generalizing text with
  | nil => cases hin
  | cons other secrets ih =>
    rw [redactSecrets_cons]
    rcases mem_cons.mp hin with rfl | hin
    · exact (places_redactSecrets_le hop hc secrets _).trans_lt (places_replace_lt hne rfl hop hc h)
    · have hle : places secret (replace text other tokenPlaceholder) ≤ places secret text :=
        places_redactSecrets_le hop hc [other] text
      by_cases hs : secret <:+: replace text other tokenPlaceholder
      · exact (ih hin hs).trans_le hle
      · have hn : places secret (replace text other tokenPlaceholder) = 0 := by
          rw [← Nat.le_zero, ← Nat.not_lt, places_pos hne]
          exact hs
        have hr := places_redactSecrets_le hop hc secrets (replace text other tokenPlaceholder)
        have hso := (places_pos hne).mpr h
        omega

end

/-! ## Tilde paths -/

theorem skipPathToken_suffix (text : Text) : skipPathToken text <:+ text := dropWhile_suffix _

theorem tildePath_sound : Sound tildePath := by
  intro text before rest length new _ h
  unfold tildePath at h
  split at h
  · rename_i hh
    cases h
    cases rest with
    | nil => cases hh.1
    | cons c rest =>
      obtain rfl := Option.some.inj hh.1
      have hs : skipPathToken ('~' :: rest) <:+ rest := by
        rw [skipPathToken, dropWhile_cons_of_pos (by decide)]
        exact dropWhile_suffix _
      have := hs.length_le
      rw [length_cons]
      omega
  · cases h

theorem tildePath_new {before rest new n} (h : tildePath before rest = some (n, new)) :
    rest.head? = some '~' ∧ new = pathPlaceholder := by
  unfold tildePath at h
  split at h
  · rename_i hh
    cases h
    exact ⟨hh.1, rfl⟩
  · cases h

theorem exists_tilde_trace (text : Text) : ∃ ps, Trace tildePath [] ps ∧ input ps = text ∧
    output ps = redactTildePaths text ∧
    ∀ found new, .replaced found new ∈ ps → '~' ∈ found ∧ new = pathPlaceholder := by
  obtain ⟨ps, hps, hin, hou⟩ := exists_trace tildePath_sound [] text
  refine ⟨ps, hps, hin, hou, fun found new hm => ?_⟩
  obtain ⟨qs, rs, rfl⟩ := append_of_mem hm
  obtain ⟨hne, hhi⟩ := hps.hit_eq
  obtain ⟨hh, hn⟩ := tildePath_new hhi
  obtain ⟨c, found, rfl⟩ := exists_cons_of_ne_nil hne
  cases hh
  exact ⟨mem_cons_self, hn⟩

theorem rewrites_redactTildePaths (text : Text) : Rewrites text (redactTildePaths text) := by
  obtain ⟨ps, -, hin, hou, ha⟩ := exists_tilde_trace text
  refine ⟨ps, hin, hou, fun found new hm => ?_⟩
  rw [(ha found new hm).2]
  decide

def NoTildePath (text : Text) : Prop :=
  ∀ front behind, text = front ++ '~' :: behind → pathTokenStart front.reverse = true →
    behind.head?.all (· == '/') = false

theorem redactTildePaths_of_none {text} (h : NoTildePath text) : redactTildePaths text = text := by
  obtain ⟨ps, hps, rfl, hou, ha⟩ := exists_tilde_trace text
  rw [← hou]
  refine output_eq_input fun found new hin => ?_
  obtain ⟨qs, rs, rfl⟩ := append_of_mem hin
  obtain ⟨hne, hh⟩ := hps.hit_eq
  unfold tildePath at hh
  split at hh
  · rename_i hat
    obtain ⟨c, found, rfl⟩ := exists_cons_of_ne_nil hne
    obtain rfl := Option.some.inj hat.1
    have hn := h (input qs) (found ++ input rs) (by simp) (by simpa using hat.2.1)
    have hat' := hat.2.2
    rw [cons_append, drop_one, tail_cons, hn] at hat'
    cases hat'
  · cases hh

/-- Where no tilde is lost, there was no tilde path. -/
theorem noTildePath_of_count {text} (h : (redactTildePaths text).count '~' = text.count '~') :
    NoTildePath text := by
  obtain ⟨ps, hps, rfl, hou, ha⟩ := exists_tilde_trace text
  have hn : ∀ found new, .replaced found new ∉ ps := by
    intro found new hin
    have hlt := count_output_lt (c := '~') (fun f n hfn hme => by
      rw [(ha f n hfn).2] at hme
      exact absurd hme (by decide)) hin (ha found new hin).1
    rw [hou] at hlt
    omega
  intro front behind ht hs
  rcases input_split ht with ⟨qs, rs, rfl, rfl, hrs⟩ | ⟨qs, found, new, rs, f, g, rfl, -⟩
  · cases rs with
    | nil => cases hrs
    | cons p rs =>
      cases p with
      | replaced found new => exact absurd (by simp) (hn found new)
      | copied c =>
        rw [input_copied] at hrs
        obtain ⟨rfl, rfl⟩ := List.cons.inj hrs
        have hm := hps.missed
        unfold tildePath at hm
        split at hm
        · cases hm
        · rename_i hno
          by_contra hsl
          exact hno ⟨rfl, by simpa using hs, by simpa using hsl⟩
  · exact absurd (by simp) (hn found new)

/-! ## Home paths -/

section
variable {word text : Text} {homes : List Text}

theorem searchPlaces_skip (word : Text) (skip index : Nat) (text : Text) :
    searchPlaces word skip index text = searchPlaces word 0 (index + skip) (text.drop skip) := by
  induction text generalizing skip index with
  | nil => cases skip <;> simp [searchPlaces]
  | cons c text ih =>
    cases skip with
    | zero => rfl
    | succ skip =>
      rw [searchPlaces, ih, drop_succ_cons, Nat.add_right_comm, Nat.add_assoc]

theorem searchPlaces_found (hw : word ≠ []) (index : Nat) (text : Text) :
    searchPlaces word 0 index (word ++ text) =
      index :: searchPlaces word 0 (index + word.length) text := by
  obtain ⟨c, tail, rfl⟩ := exists_cons_of_ne_nil hw
  rw [cons_append, searchPlaces,
    if_pos (show c :: tail <+: c :: (tail ++ text) from prefix_append (c :: tail) text),
    searchPlaces_skip]
  have hd : (tail ++ text).drop ((c :: tail).length - 1) = text := List.drop_left
  have hin : index + 1 + ((c :: tail).length - 1) = index + (c :: tail).length := by
    rw [length_cons]
    omega
  rw [hd, hin]

theorem mem_searchPlaces_trace (hw : word ≠ []) {before ps}
    (h : Trace (fixed (wordAt word) word) before ps)
    (ha : ∀ found new, .replaced found new ∈ ps → found = word ∧ new = word) (index start : Nat) :
    start ∈ searchPlaces word 0 index (input ps) ↔
      ∃ qs rs, ps = qs ++ .replaced word word :: rs ∧ start = index + (input qs).length := by
  induction h generalizing index with
  | nil =>
    refine ⟨nofun, ?_⟩
    rintro ⟨qs, rs, hn, -⟩
    simp at hn
  | @copied before c ps hm _ ih =>
    have hm' := wordAt_eq_none.mp (fixed_eq_none.mp hm)
    rw [input_copied, searchPlaces, if_neg hm',
      ih fun found new hin => ha found new (mem_cons_of_mem _ hin)]
    constructor
    · rintro ⟨qs, rs, rfl, rfl⟩
      refine ⟨.copied c :: qs, rs, rfl, ?_⟩
      rw [input_copied, length_cons]
      omega
    · rintro ⟨qs, rs, heq, rfl⟩
      cases qs with
      | nil => cases heq
      | cons p qs =>
        obtain ⟨rfl, rfl⟩ := List.cons.inj heq
        refine ⟨qs, rs, rfl, ?_⟩
        rw [input_copied, length_cons]
        omega
  | @replaced before found new ps hf hh _ ih =>
    obtain ⟨hf', hn'⟩ := ha found new mem_cons_self
    subst hf' hn'
    rw [input_replaced, searchPlaces_found hw, mem_cons,
      ih fun found new hin => ha found new (mem_cons_of_mem _ hin)]
    constructor
    · rintro (rfl | ⟨qs, rs, rfl, rfl⟩)
      · exact ⟨[], ps, rfl, rfl⟩
      · refine ⟨.replaced _ _ :: qs, rs, rfl, ?_⟩
        rw [input_replaced, length_append]
        omega
    · rintro ⟨qs, rs, heq, rfl⟩
      cases qs with
      | nil => exact .inl rfl
      | cons p qs =>
        obtain ⟨rfl, rfl⟩ := List.cons.inj heq
        refine .inr ⟨qs, rs, rfl, ?_⟩
        rw [input_replaced, length_append]
        omega

theorem mem_searchPlaces (hw : word ≠ []) (start : Nat) (text : Text) :
    start ∈ searchPlaces word 0 0 text ↔ ∃ front, Sought word text front ∧
      start = front.length := by
  obtain ⟨ps, hps, rfl, -, ha⟩ := exists_replace_trace hw word text
  rw [mem_searchPlaces_trace hw hps ha]
  constructor
  · rintro ⟨qs, rs, rfl, rfl⟩
    exact ⟨input qs, ⟨qs, rs, hps, rfl, rfl⟩, Nat.zero_add _⟩
  · rintro ⟨front, ⟨qs, rs, hqs, hin, rfl⟩, rfl⟩
    exact ⟨qs, rs, (hqs.unique hps hin).symm, (Nat.zero_add _).symm⟩

/-- No home path is found at the start of a path. -/
def NoHomePath (homes : List Text) (text : Text) : Prop :=
  ∀ home ∈ homes, ∀ front, Sought home text front → pathTokenStart front.reverse = false

theorem sought_isPathTokenStart {front} (h : Sought word text front) :
    isPathTokenStart text front.length = pathTokenStart front.reverse := by
  obtain ⟨behind, rfl⟩ := h.stands
  unfold isPathTokenStart
  rw [append_assoc, take_left]

/-- The places where home paths are found, in the order they are compared. -/
def homePlaces (text : Text) (homes : List Text) : List (Nat × Text) :=
  homes.flatMap fun home => (searchPlaces home 0 0 text).map (·, home)

theorem mem_homePlaces {start home} : (start, home) ∈ homePlaces text homes ↔
    home ∈ homes ∧ start ∈ searchPlaces home 0 0 text := by
  simp [homePlaces]

theorem nextHomePath_eq : nextHomePath text homes =
    (homePlaces text homes).foldl (fun found p => keepNearest text p.2 found p.1) none := by
  simp only [nextHomePath, homePlaces, foldl_flatMap, foldl_map]

theorem nearest_some {found} {ps : List (Nat × Text)} {best}
    (h : ps.foldl (fun found p => keepNearest text p.2 found p.1) found = some best) :
    found = some best ∨ best ∈ ps ∧ isPathTokenStart text best.1 = true := by
  induction ps generalizing found with
  | nil => exact .inl h
  | cons p ps ih =>
    rcases ih h with h | ⟨hin, hs⟩
    · simp only [keepNearest] at h
      split at h
      · rename_i hh
        cases h
        exact .inr ⟨mem_cons_self, (Bool.and_eq_true_iff.mp hh).1⟩
      · exact .inl h
    · exact .inr ⟨mem_cons_of_mem _ hin, hs⟩

theorem nearest_none {found} {ps : List (Nat × Text)}
    (h : ps.foldl (fun found p => keepNearest text p.2 found p.1) found = none) :
    found = none ∧ ∀ p ∈ ps, isPathTokenStart text p.1 = false := by
  induction ps generalizing found with
  | nil => exact ⟨h, nofun⟩
  | cons p ps ih =>
    obtain ⟨hf, hr⟩ := ih h
    simp only [keepNearest] at hf
    split at hf
    · cases hf
    · rename_i hm
      subst hf
      refine ⟨rfl, forall_mem_cons.mpr ⟨?_, hr⟩⟩
      simpa [nearer] using hm

theorem nextHomePath_some {start : Nat} {home : Text}
    (h : nextHomePath text homes = some (start, home)) :
    home ∈ homes ∧ start ∈ searchPlaces home 0 0 text ∧ isPathTokenStart text start = true := by
  rw [nextHomePath_eq] at h
  obtain ⟨hin, hs⟩ := (nearest_some h).resolve_left nofun
  exact ⟨(mem_homePlaces.mp hin).1, (mem_homePlaces.mp hin).2, hs⟩

theorem nextHomePath_none (hne : ∀ home ∈ homes, home ≠ []) :
    nextHomePath text homes = none ↔ NoHomePath homes text := by
  constructor
  · intro h home hh front hs
    rw [nextHomePath_eq] at h
    rw [← sought_isPathTokenStart hs]
    exact (nearest_none h).2 (front.length, home) (mem_homePlaces.mpr
      ⟨hh, (mem_searchPlaces (hne home hh) _ _).mpr ⟨front, hs, rfl⟩⟩)
  · intro h
    cases hn : nextHomePath text homes with
    | none => rfl
    | some found =>
      obtain ⟨start, home⟩ := found
      obtain ⟨hh, hin, hst⟩ := nextHomePath_some hn
      obtain ⟨front, hs, rfl⟩ := (mem_searchPlaces (hne home hh) _ _).mp hin
      rw [sought_isPathTokenStart hs, h home hh front hs] at hst
      cases hst

theorem redactHomePaths_of_none (hne : ∀ home ∈ homes, home ≠ []) (h : NoHomePath homes text) :
    redactHomePaths text homes = text := by
  unfold redactHomePaths
  cases text with
  | nil => rfl
  | cons c text =>
    rw [length_cons, redactHomePathsFrom, (nextHomePath_none hne).mpr h]

theorem behindHome_suffix (rest : Text) (start : Nat) (home : Text) :
    behindHome rest start home <:+ rest.drop (start + home.length) := by
  unfold behindHome
  dsimp only
  split
  · exact (drop_suffix _ _).trans (skipPathToken_suffix _)
  · exact skipPathToken_suffix _

theorem count_behindHome {rest home front} (c : Char) (h : Sought home rest front) :
    (rest.take front.length).count c +
      (home.count c + (behindHome rest front.length home).count c) ≤ rest.count c := by
  obtain ⟨behind, rfl⟩ := h.stands
  have hs := behindHome_suffix (front ++ home ++ behind) front.length home
  rw [← length_append, List.drop_left] at hs
  have hb := hs.sublist.count_le c
  rw [append_assoc, take_left, count_append, count_append]
  rw [append_assoc] at hb
  omega

theorem rewrites_redactHomePathsFrom (fuel : Nat) (rest : Text) :
    Rewrites rest (redactHomePathsFrom homes fuel rest) := by
  induction fuel generalizing rest with
  | zero => exact .refl
  | succ fuel ih =>
    rw [redactHomePathsFrom]
    cases nextHomePath rest homes with
    | none => exact .refl
    | some found =>
      obtain ⟨start, home⟩ := found
      obtain ⟨ps, hin, hou, hp⟩ := ih (behindHome rest start home)
      obtain ⟨qs, hqi, hqo, hq⟩ : Rewrites (rest.take start) (rest.take start) := .refl
      have hs : behindHome rest start home <:+ rest.drop start := by
        refine (behindHome_suffix rest start home).trans ?_
        rw [← drop_drop]
        exact drop_suffix _ _
      obtain ⟨found, hf⟩ := hs
      refine ⟨qs ++ .replaced found pathPlaceholder :: ps, ?_, ?_, fun f n hfn => ?_⟩
      · rw [input_append, input_replaced, hqi, hin, hf, take_append_drop]
      · rw [output_append, output_replaced, hqo, hou]
      · rcases mem_append.mp hfn with hl | hr
        · exact hq f n hl
        · rcases mem_cons.mp hr with heq | hr
          · cases heq
            decide
          · exact hp f n hr

/-- Where no slash is lost, no home path with a slash was found. -/
theorem noHomePath_of_count (hs : ∀ home ∈ homes, '/' ∈ home ∨ Absent home text)
    (h : (redactHomePaths text homes).count '/' = text.count '/') : NoHomePath homes text := by
  have hne : ∀ home ∈ homes, home ≠ [] := fun home hh =>
    (hs home hh).elim ne_nil_of_mem Absent.ne_nil
  rw [← nextHomePath_none hne]
  cases hnx : nextHomePath text homes with
  | none => rfl
  | some found =>
    exfalso
    obtain ⟨start, home⟩ := found
    obtain ⟨hh, hin, -⟩ := nextHomePath_some hnx
    obtain ⟨front, hso, rfl⟩ := (mem_searchPlaces (hne home hh) _ _).mp hin
    have hl := count_behindHome '/' hso
    have hst : home <:+: text := (suffix_append _ _).isInfix.trans hso.stands.isInfix
    have hlo : 0 < home.count '/' :=
      count_pos_iff.mpr ((hs home hh).resolve_right fun ha => ha.not_infix hst)
    have hle : ∃ n, text.length = n + 1 := by
      refine Nat.exists_eq_succ_of_ne_zero fun hz => ?_
      rw [length_eq_zero_iff.mp hz] at hl
      simp at hl
      omega
    obtain ⟨n, hn⟩ := hle
    have hr := (@rewrites_redactHomePathsFrom homes n
      (behindHome text front.length home)).count_le (c := '/') (by decide)
    rw [redactHomePaths, hn, redactHomePathsFrom, hnx] at h
    dsimp only at h
    rw [count_append, count_append,
      show pathPlaceholder.count '/' = 0 by decide] at h
    omega

end

/-! ## Tokens -/

section
variable {rest new : Text} {n : Nat}

theorem tokenAt_cases (h : tokenAt rest = some (n, new)) :
    (isBearer rest = true ∧ n = rest.length - (behindBearer rest).length ∧ new = bearerToken) ∨
    (isSk rest = true ∧ n = rest.length - (skipTokenRun (rest.drop skToken.length)).length ∧
      new = tokenPlaceholder) ∨
    (isHexToken rest = true ∧ n = (rest.takeWhile Char.isAlphanum).length ∧
      new = tokenPlaceholder) ∨
    (base64TokenLen rest = some n ∧ new = tokenPlaceholder) := by
  unfold tokenAt at h
  split at h
  · cases h
    exact .inl ⟨‹_›, rfl, rfl⟩
  · split at h
    · cases h
      exact .inr (.inl ⟨‹_›, rfl, rfl⟩)
    · split at h
      · cases h
        exact .inr (.inr (.inl ⟨‹_›, rfl, rfl⟩))
      · obtain ⟨length, hl, heq⟩ := Option.map_eq_some_iff.mp h
        cases heq
        exact .inr (.inr (.inr ⟨hl, rfl⟩))

theorem tokenAt_none (h : tokenAt rest = none) : isBearer rest = false ∧ isSk rest = false ∧
    isHexToken rest = false ∧ base64TokenLen rest = none := by
  unfold tokenAt at h
  split at h
  · cases h
  · split at h
    · cases h
    · split at h
      · cases h
      · rename_i hb hsk hh
        exact ⟨Bool.eq_false_iff.mpr hb, Bool.eq_false_iff.mpr hsk, Bool.eq_false_iff.mpr hh,
          Option.map_eq_none_iff.mp h⟩

theorem skipTokenRun_suffix (text : Text) : skipTokenRun text <:+ text := dropWhile_suffix _

theorem stripPlaceholder_suffix (value : Text) : stripPlaceholder value <:+ value := by
  unfold stripPlaceholder
  split
  · exact drop_suffix _ _
  · split
    · exact drop_suffix _ _
    · exact suffix_rfl

theorem isBearer_iff : isBearer rest = true ↔ ∃ keyword space behind,
    rest = keyword ++ space :: behind ∧ keyword.length = 6 ∧
      keyword.map Char.toLower = bearer.map Char.toLower ∧ isWhitespace space = true := by
  unfold isBearer
  rw [Bool.and_eq_true, beq_iff_eq]
  constructor
  · rintro ⟨hk, hs⟩
    cases hd : rest.drop bearer.length with
    | nil =>
      rw [hd] at hs
      cases hs
    | cons space behind =>
      rw [hd] at hs
      refine ⟨rest.take bearer.length, space, behind, ?_, ?_, hk, hs⟩
      · rw [← hd, take_append_drop]
      · have hl := congrArg List.length hk
        rw [length_map, length_map] at hl
        exact hl
  · rintro ⟨keyword, space, behind, rfl, hl, hk, hs⟩
    have hsi : bearer.length = keyword.length := hl.symm
    rw [hsi, take_left, List.drop_left]
    exact ⟨hk, hs⟩

theorem behindBearer_suffix {keyword behind space} (hl : keyword.length = 6)
    (hs : isWhitespace space = true) :
    behindBearer (keyword ++ space :: behind) <:+ behind := by
  unfold behindBearer
  have hsi : bearer.length = keyword.length := hl.symm
  rw [hsi, List.drop_left, dropWhile_cons_of_pos hs]
  exact (skipTokenRun_suffix _).trans ((stripPlaceholder_suffix _).trans (dropWhile_suffix _))

theorem base64TokenLen_some (h : base64TokenLen rest = some n) :
    ∃ body padding, body = rest.takeWhile isBase64Body ∧
      padding = ((rest.drop body.length).takeWhile (· == '=')).take 2 ∧
      32 ≤ body.length ∧ n = body.length + padding.length := by
  unfold base64TokenLen at h
  dsimp only at h
  split at h
  · rename_i hh
    cases h
    obtain ⟨hl, -⟩ := Bool.and_eq_true_iff.mp hh
    exact ⟨_, _, rfl, rfl, by simpa using hl, rfl⟩
  · cases h

theorem base64_take {body padding} (hb : body = rest.takeWhile isBase64Body)
    (hp : padding = ((rest.drop body.length).takeWhile (· == '=')).take 2) :
    body ++ padding <+: rest := by
  have hs : body <+: rest := hb ▸ takeWhile_prefix _
  obtain ⟨behind, rfl⟩ := hs
  refine (prefix_append_right_inj _).mpr ?_
  rw [hp, List.drop_left]
  exact (List.take_prefix _ _).trans (List.takeWhile_prefix _)

theorem tokenAt_sound : Sound fun _ => tokenAt := by
  intro text before rest length new _ h
  rcases tokenAt_cases h with ⟨hb, rfl, -⟩ | ⟨hsk, rfl, -⟩ | ⟨hh, rfl, -⟩ | ⟨hba, -⟩
  · obtain ⟨keyword, space, behind, rfl, hln, -, hs⟩ := isBearer_iff.mp hb
    have hsu := (@behindBearer_suffix keyword behind space hln hs).length_le
    rw [length_append, length_cons]
    omega
  · obtain ⟨hst, hl⟩ := Bool.and_eq_true_iff.mp hsk
    obtain ⟨behind, rfl⟩ := isPrefixOf_iff_prefix.mp hst
    rw [List.drop_left]
    have hsu := (skipTokenRun_suffix behind).length_le
    rw [length_append, show skToken.length = 3 from rfl]
    omega
  · obtain ⟨hl, -⟩ := Bool.and_eq_true_iff.mp hh
    have hle := (List.takeWhile_prefix Char.isAlphanum (l := rest)).length_le
    simp only [decide_eq_true_eq] at hl
    omega
  · obtain ⟨body, padding, hbo, hp, hl, rfl⟩ := base64TokenLen_some hba
    have hle := (base64_take hbo hp).length_le
    rw [length_append] at hle
    omega

theorem new_written (h : tokenAt rest = some (n, new)) : ∀ c ∈ new, c ∈ written := by
  intro c hc
  rcases tokenAt_cases h with ⟨-, -, rfl⟩ | ⟨-, -, rfl⟩ | ⟨-, -, rfl⟩ | ⟨-, rfl⟩
  · exact mem_written_of_bearer hc
  · exact mem_written_of_token hc
  · exact mem_written_of_token hc
  · exact mem_written_of_token hc

theorem rewrites_redactTokens (text : Text) : Rewrites text (redactTokens text) := by
  obtain ⟨ps, hps, hin, hou⟩ := exists_trace tokenAt_sound [] text
  refine ⟨ps, hin, hou, fun found new hm => ?_⟩
  obtain ⟨qs, rs, rfl⟩ := append_of_mem hm
  rcases tokenAt_cases hps.hit_eq.2 with ⟨-, -, rfl⟩ | ⟨-, -, rfl⟩ | ⟨-, -, rfl⟩ | ⟨-, rfl⟩
  · simp [placeholders]
  · simp [placeholders]
  · simp [placeholders]
  · simp [placeholders]

/-- What every replacement by placeholders keeps, a redaction keeps. -/
theorem redact_keeps {P : Text → Prop} (hp : ∀ {x y}, Rewrites x y → P x → P y)
    (boundary : RedactionBoundary) {text} (h : P text) : P (boundary.redact text) := by
  have hs : P (redactSecrets boundary.secrets text) := redactSecrets_keeps hp _ h
  exact hp (rewrites_redactTokens _) (hp (rewrites_redactHomePathsFrom _ _)
    (hp (rewrites_redactTildePaths _) hs))

/-- A stretch of the characters of placeholders that is replaced: a bearer token in its
usual spelling, or a long run. -/
inductive Shape : Text → Text → Text → Prop
  | bearer (value behind : Text) : (∀ c ∈ behind.head?, isTokenRun c = false) →
      Shape (Redaction.bearer ++ ' ' :: value) bearerToken behind
  | run {found behind : Text} : 32 ≤ found.length → (∀ c ∈ found, isBase64Body c = true) →
      Shape found tokenPlaceholder behind

theorem head_dropWhile {p} (text : Text) : ∀ c ∈ (text.dropWhile p).head?, p c = false := by
  intro c hc
  have := head?_dropWhile_not p text
  rw [Option.mem_def.mp hc] at this
  simpa using this

theorem eq_of_behind {found behind left : Text} (h : left <:+ found ++ behind)
    (hl : found.length = (found ++ behind).length - left.length) : behind = left := by
  have hle := h.length_le
  rw [length_append] at hl hle
  refine (List.IsSuffix.eq_of_length ?_ ?_)
  · exact suffix_of_suffix_length_le (suffix_append _ _) h (by omega)
  · omega

theorem eq_bearer_of_lower {keyword} (h : keyword.map Char.toLower = bearer.map Char.toLower)
    (hin : ∀ c ∈ keyword, c ∈ written) :
    keyword = bearer := by
  have ha : written.all (fun c => bearer.all fun d => c.toLower != d.toLower || c == d) = true := by
    decide
  have hl : ∀ c ∈ written, ∀ d ∈ bearer, c.toLower = d.toLower → c = d := by
    intro c hc d hd heq
    have := all_eq_true.mp (all_eq_true.mp ha c hc) d hd
    simpa [heq] using this
  refine ext_getElem (by simpa using congrArg List.length h) fun i hi hi' => ?_
  refine hl _ (hin _ (getElem_mem hi)) _ (getElem_mem hi') ?_
  have := congrArg (·[i]?) h
  simpa [hi, hi'] using this

theorem shape_of_written {found behind : Text} (hne : found ≠ [])
    (h : tokenAt (found ++ behind) = some (found.length, new)) (hin : ∀ c ∈ found, c ∈ written) :
    Shape found new behind := by
  rcases tokenAt_cases h with ⟨hbe, hln, rfl⟩ | ⟨hsk, hln, rfl⟩ | ⟨hh, hln, rfl⟩ | ⟨hba, rfl⟩
  · obtain ⟨keyword, space, after, ht, hsi, hk, hsp⟩ := isBearer_iff.mp hbe
    have hsu := @behindBearer_suffix keyword after space hsi hsp
    have hle : behind = behindBearer (found ++ behind) := by
      refine eq_of_behind ?_ hln
      rw [ht]
      exact hsu.trans ((suffix_cons _ _).trans (suffix_append _ _))
    have hv : keyword ++ [space] <+: found := by
      refine prefix_of_prefix_length_le ?_ (prefix_append found behind) ?_
      · rw [ht]
        exact ⟨after, by simp⟩
      · have hsh := hsu.length_le
        rw [ht, length_append, length_cons] at hln
        rw [length_append, length_singleton]
        omega
    obtain ⟨value, rfl⟩ := hv
    obtain rfl := eq_bearer_of_lower hk fun c hc => hin c (by simp [hc])
    have hbl : written.all (fun c => !isWhitespace c || c == ' ') = true := by decide
    obtain rfl : space = ' ' := by
      have := all_eq_true.mp hbl space (hin space (by simp))
      simpa [hsp] using this
    rw [append_assoc, singleton_append]
    refine .bearer value behind ?_
    rw [hle]
    exact head_dropWhile _
  · exfalso
    obtain ⟨hst, -⟩ := Bool.and_eq_true_iff.mp hsk
    have hs : (found ++ behind).head? = some 's' := by
      obtain ⟨tail, hta⟩ := isPrefixOf_iff_prefix.mp hst
      rw [← hta]
      rfl
    obtain ⟨c, found, rfl⟩ := exists_cons_of_ne_nil hne
    cases hs
    exact absurd (hin 's' mem_cons_self) (by decide)
  · obtain ⟨hl, -⟩ := Bool.and_eq_true_iff.mp hh
    have hf : (found ++ behind).takeWhile Char.isAlphanum = found :=
      word_eq_found (List.takeWhile_prefix _) hln.symm
    rw [hf] at hl
    refine .run (by simpa using hl) fun c hc => ?_
    rw [← hf] at hc
    have := all_eq_true.mp all_takeWhile c hc
    simp [isBase64Body, this]
  · obtain ⟨body, padding, hb, hp, hl, hln⟩ := base64TokenLen_some hba
    have hf : body ++ padding = found :=
      word_eq_found (base64_take hb hp) (by rw [length_append]; omega)
    have hn : padding = [] := by
      refine eq_nil_iff_forall_not_mem.mpr fun c hc => ?_
      have heq : c = '=' := by
        rw [hp] at hc
        have := all_eq_true.mp all_takeWhile c (mem_of_mem_take hc)
        simpa using this
      have hm := hin c (by rw [← hf]; exact mem_append_right _ hc)
      rw [heq] at hm
      exact absurd hm (by decide)
    rw [hn, append_nil] at hf
    refine .run (by rw [← hf]; exact hl) fun c hc => ?_
    rw [← hf, hb] at hc
    exact all_eq_true.mp all_takeWhile c hc

end

end MacWorker.Redaction
