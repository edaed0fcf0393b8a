import MacWorker.Session.Scrub
import Mathlib.Order.Bounds.Defs

/-! # What scrubbing removes

The stretches of a text that are secrets are said here without the scan: an exact secret,
a block of a private key, or a token at the start of a word. The tables of the scan know
the longest stretch at every place.

The scan replaces the longest stretch at a place and goes on behind it. Where a stretch
begins inside one that is replaced and sticks out of it, what sticks out is copied unless it
is part of another stretch that is replaced. -/
namespace MacWorker.Session
open List hiding replace
open Splice
open Scrubber (new)

def BlockIn (input : List UInt8) (ds : List Delimiter) (i n : Nat) : Prop :=
  ∃ before d middle e after, ds = before ++ d :: (middle ++ e :: after) ∧ d.opens = true ∧
    e.opens = false ∧ e.label = d.label ∧ (∀ m ∈ middle, m.opens = false → m.label ≠ d.label) ∧
    atWordStart input d.start = true ∧ d.start = i ∧ i + n = e.finish

/-- A stretch of the text that is a secret: where it begins, its length, and how much of
its beginning may be kept. -/
inductive Recognised (secrets : List (List UInt8)) (input : List UInt8) : Nat → Nat → Nat → Prop
  | exact {i : Nat} {secret : List UInt8} : secret ∈ secrets → 8 ≤ secret.length →
      secret <+: input.drop i → Recognised secrets input i secret.length 0
  | block {i n : Nat} : BlockIn input (delimiters input) i n → Recognised secrets input i n 0
  | token {i n keep : Nat} : atWordStart input i = true → tokenSpan (input.drop i) = (n, keep) →
      n ≠ 0 → Recognised secrets input i n keep

/-! ## Tokens -/

theorem TokenPattern.span_bounds {p : TokenPattern} (h : 0 < p.minimum) (hk : p.keep ≤ p.lead)
    (input : List UInt8) :
    (p.span input).2 ≤ (p.span input).1 ∧ (p.span input).1 ≤ input.length := by
  unfold TokenPattern.span
  have hle : ((input.drop p.lead).takeWhile p.allowed).length ≤ input.length - p.lead := by
    rw [← length_drop]
    exact (List.takeWhile_prefix _).length_le
  dsimp only
  split
  · dsimp only
    omega
  · exact ⟨le_rfl, Nat.zero_le _⟩

theorem tokenSpan_bounds (input : List UInt8) :
    (tokenSpan input).2 ≤ (tokenSpan input).1 ∧ (tokenSpan input).1 ≤ input.length := by
  unfold tokenSpan
  repeat' split
  all_goals first
    | exact ⟨le_rfl, Nat.zero_le _⟩
    | exact TokenPattern.span_bounds (by decide) (by decide) input
    | skip
  rename_i h
  unfold akiaSpan
  split
  · simp only [Bool.and_eq_true, decide_eq_true_eq] at h
    exact ⟨Nat.zero_le _, h.2⟩
  · exact ⟨le_rfl, Nat.zero_le _⟩

/-! ## Delimiters -/

section
variable {input : List UInt8}

/-- What is known of a delimiter: it is part of the text, and dashes begin and end it. -/
structure Delimiter.Within (input : List UInt8) (d : Delimiter) : Prop where
  lt : d.start < d.finish
  le : d.finish ≤ input.length
  first : input[d.start]? = some 45
  last : input[d.finish - 1]? = some 45

theorem delimiterLead_first {rest lead opens} (h : delimiterLead rest = some (lead, opens)) :
    rest[0]? = some 45 := by
  have hd : ∀ word : List UInt8, word.head? = some 45 → word <+: rest → rest[0]? = some 45 := by
    intro word hw hs
    obtain ⟨tail, rfl⟩ := hs
    cases word with
    | nil => cases hw
    | cons b word => exact hw
  unfold delimiterLead at h
  split at h
  · exact hd (bytes "-----BEGIN ") rfl (List.isPrefixOf_iff_prefix.mp ‹_›)
  · split at h
    · exact hd (bytes "-----END ") rfl (List.isPrefixOf_iff_prefix.mp ‹_›)
    · cases h

theorem delimitersFrom_spec (fuel index : Nat) :
    (∀ d ∈ delimitersFrom input fuel index, index ≤ d.start ∧ d.Within input) ∧
      (delimitersFrom input fuel index).Pairwise fun d e => d.start < e.start := by
  induction fuel generalizing index with
  | zero => exact ⟨nofun, .nil⟩
  | succ fuel ih =>
    -- Going on from a later place.
    have hl : ∀ next, index ≤ next →
        (∀ d ∈ delimitersFrom input fuel next, index ≤ d.start ∧ d.Within input) ∧
          (delimitersFrom input fuel next).Pairwise fun d e => d.start < e.start := by
      intro next hn
      exact ⟨fun d hd => ⟨hn.trans ((ih next).1 d hd).1, ((ih next).1 d hd).2⟩, (ih next).2⟩
    unfold delimitersFrom
    split
    · exact ⟨nofun, .nil⟩
    · cases hle : delimiterLead (input.drop index) with
      | none => exact hl _ (by omega)
      | some answer =>
        obtain ⟨lead, opens⟩ := answer
        dsimp only
        generalize hla : (input.drop (index + lead)).takeWhile isLabelByte = label
        split
        · rename_i hc
          obtain ⟨-, hda⟩ := Bool.and_eq_true_iff.mp hc
          have hln := (List.isPrefixOf_iff_prefix.mp hda).length_le
          rw [length_drop] at hln
          replace hln : 5 ≤ input.length - (index + lead + label.length) := hln
          obtain ⟨hin, hp⟩ := ih (index + lead + label.length + 5)
          refine ⟨fun d hd => ?_, pairwise_cons.mpr ⟨fun d hd => ?_, hp⟩⟩
          · rcases mem_cons.mp hd with rfl | hd
            · refine ⟨le_rfl, ?_, ?_, ?_, ?_⟩
              · change index < index + lead + label.length + 5
                omega
              · change index + lead + label.length + 5 ≤ input.length
                omega
              · have hf := delimiterLead_first hle
                rwa [getElem?_drop] at hf
              · change input[index + lead + label.length + 4]? = some 45
                rw [← getElem?_drop]
                obtain ⟨tail, ht⟩ := isPrefixOf_iff_prefix.mp hda
                rw [← ht]
                rfl
            · exact ⟨by have := (hin d hd).1; omega, (hin d hd).2⟩
          · have := (hin d hd).1
            change index < d.start
            omega
        · exact hl _ (by omega)

theorem delimiters_within {d} (h : d ∈ delimiters input) : d.Within input :=
  ((delimitersFrom_spec input.length 0).1 d h).2

theorem delimiters_sorted : (delimiters input).Pairwise fun d e => d.start < e.start :=
  (delimitersFrom_spec input.length 0).2

/-! ## Blocks -/

theorem BlockIn.append {ds i n} (h : BlockIn input ds i n) (more : List Delimiter) :
    BlockIn input (ds ++ more) i n := by
  obtain ⟨before, d, middle, e, after, rfl, h⟩ := h
  exact ⟨before, d, middle, e, after ++ more, by simp, h⟩

theorem snoc_eq_append_cons {β : Type} {l before after : List β} {x y : β}
    (h : l ++ [x] = before ++ y :: after) : after = [] ∧ l = before ∧ x = y ∨
      ∃ after', after = after' ++ [x] ∧ l = before ++ y :: after' := by
  rcases eq_nil_or_concat after with rfl | ⟨after, z, rfl⟩
  · obtain ⟨rfl, hx⟩ := append_inj' h rfl
    exact .inl ⟨rfl, rfl, (List.cons.inj hx).1⟩
  · have hl : l ++ [x] = (before ++ y :: after) ++ [z] := by simpa using h
    obtain ⟨rfl, hx⟩ := append_inj' hl rfl
    cases hx
    exact .inr ⟨after, by simp, rfl⟩

/-- A block with this label begins at this place, and is not closed. -/
def OpenIn (input : List UInt8) (ds : List Delimiter) (label : List UInt8) (start : Nat) : Prop :=
  ∃ before d after, ds = before ++ d :: after ∧ d.opens = true ∧ d.label = label ∧
    d.start = start ∧ atWordStart input start = true ∧
    ∀ m ∈ after, m.opens = false → m.label ≠ label

theorem openIn_snoc {ds x label start} : OpenIn input (ds ++ [x]) label start ↔
    OpenIn input ds label start ∧ (x.opens = false → x.label ≠ label) ∨
      x.opens = true ∧ x.label = label ∧ x.start = start ∧ atWordStart input start = true := by
  constructor
  · rintro ⟨before, d, after, hds, ho, hl, hs, hw, ha⟩
    rcases snoc_eq_append_cons hds with ⟨rfl, rfl, rfl⟩ | ⟨after, rfl, rfl⟩
    · exact .inr ⟨ho, hl, hs, hw⟩
    · exact .inl ⟨⟨before, d, after, rfl, ho, hl, hs, hw, fun m hm => ha m (mem_append_left _ hm)⟩,
        ha x (by simp)⟩
  · rintro (⟨⟨before, d, after, rfl, ho, hl, hs, hw, ha⟩, hx⟩ | ⟨ho, hl, hs, hw⟩)
    · refine ⟨before, d, after ++ [x], by simp, ho, hl, hs, hw, fun m hm => ?_⟩
      rcases mem_append.mp hm with hm | hm
      · exact ha m hm
      · exact mem_singleton.mp hm ▸ hx
    · exact ⟨ds, x, [], rfl, ho, hl, hs, hw, nofun⟩

theorem blockIn_snoc {ds x i n} : BlockIn input (ds ++ [x]) i n ↔
    BlockIn input ds i n ∨ x.opens = false ∧ OpenIn input ds x.label i ∧ i + n = x.finish := by
  constructor
  · rintro ⟨before, d, middle, e, after, hds, ho, hc, hl, hm, hw, rfl, hn⟩
    have hds : ds ++ [x] = (before ++ d :: middle) ++ e :: after := by simpa using hds
    rcases snoc_eq_append_cons hds with ⟨rfl, rfl, rfl⟩ | ⟨after, rfl, rfl⟩
    · exact .inr ⟨hc, ⟨before, d, middle, rfl, ho, hl.symm, rfl, hw, hl ▸ hm⟩, hn⟩
    · exact .inl ⟨before, d, middle, e, after, by simp, ho, hc, hl, hm, hw, rfl, hn⟩
  · rintro (h | ⟨hc, ⟨before, d, middle, rfl, ho, hl, rfl, hw, hm⟩, hn⟩)
    · exact h.append _
    · exact ⟨before, d, middle, x, [], by simp, ho, hc, hl.symm, hl ▸ hm, hw, rfl, hn⟩

theorem BlockIn.lt {ds i n} (hw : ∀ d ∈ ds, d.Within input)
    (hs : ds.Pairwise fun d e => d.start < e.start) (h : BlockIn input ds i n) :
    0 < n ∧ i + n ≤ input.length := by
  obtain ⟨before, d, middle, e, after, rfl, -, -, -, -, -, rfl, hn⟩ := h
  have he := hw e (by simp)
  have hor : d.start < e.start := by
    have ht := (pairwise_append.mp hs).2.1
    exact (pairwise_cons.mp ht).1 e (by simp)
  have := he.lt
  have := he.le
  omega

/-- The state after some delimiters: which blocks are open, and that the table knows
those that were closed. -/
structure PemState.Follows (input : List UInt8) (base : List Nat) (past : List Delimiter)
    (state : PemState) : Prop where
  length : state.spans.length = base.length
  pendingOpen : ∀ label start, state.pending.lookup label = some start →
    OpenIn input past label start
  openPending : ∀ label start, OpenIn input past label start →
    ∃ start₀ ≤ start, state.pending.lookup label = some start₀
  grows : ∀ i, base.getD i 0 ≤ state.spans.getD i 0
  sound : ∀ i, state.spans.getD i 0 = base.getD i 0 ∨ BlockIn input past i (state.spans.getD i 0)
  complete : ∀ i n, BlockIn input past i n → ∃ i₀ ≤ i, BlockIn input past i₀ (i + n - i₀) ∧
    i + n - i₀ ≤ state.spans.getD i₀ 0

theorem lookup_filter_ne {entries : List (List UInt8 × Nat)} (label label' : List UInt8) :
    (entries.filter fun entry => entry.1 != label).lookup label' =
      if label' = label then none else entries.lookup label' := by
  induction entries with
  | nil => simp
  | cons entry entries ih =>
    obtain ⟨key, start⟩ := entry
    by_cases hk : key = label
    · subst hk
      rw [filter_cons_of_neg (by simp), ih]
      by_cases hl : label' = key
      · simp [hl]
      · have hb : (label' == key) = false := by simpa using hl
        simp [hl, lookup_cons, hb]
    · rw [filter_cons_of_pos (by simpa using hk), lookup_cons, ih, lookup_cons]
      by_cases hl : label' = label
      · subst hl
        have hb : (label' == key) = false := by simpa using fun h : label' = key => hk h.symm
        simp [hb]
      · simp [hl]

theorem getD_modify (spans : List Nat) (start i : Nat) (f : Nat → Nat) (h : start < spans.length) :
    (spans.modify start f).getD i 0 = if start = i then f (spans.getD i 0) else spans.getD i 0 := by
  rw [getD_eq_getElem?_getD, getElem?_modify]
  by_cases hi : start = i
  · subst hi
    simp [h]
  · simp [hi]

section
variable {base : List Nat} {past : List Delimiter} {state : PemState} {d : Delimiter}

theorem PemState.lookup_open (label : List UInt8) :
    (state.open input d).pending.lookup label = (state.pending.lookup label).or
      (if label = d.label ∧ atWordStart input d.start = true then some d.start else none) := by
  unfold PemState.open
  by_cases hl : label = d.label
  · subst hl
    cases hs : state.pending.lookup d.label <;> cases atWordStart input d.start <;> simp [hs]
  · have hb : (label == d.label) = false := by simpa using hl
    split <;> simp [lookup_cons, hb, hl]

theorem PemState.Follows.opened (h : state.Follows input base past) (hop : d.opens = true)
    (hlt : ∀ e ∈ past, e.start < d.start) :
    (state.open input d).Follows input base (past ++ [d]) := by
  have hsp : (state.open input d).spans = state.spans := by
    unfold PemState.open
    split <;> rfl
  refine ⟨by rw [hsp, h.length], fun label start hst => ?_, fun label start ho => ?_,
    fun i => by rw [hsp]; exact h.grows i, fun i => ?_, fun i n hb => ?_⟩
  · rw [lookup_open, Option.or_eq_some_iff] at hst
    rcases hst with hst | ⟨-, hst⟩
    · exact openIn_snoc.mpr (.inl ⟨h.pendingOpen label start hst, by simp [hop]⟩)
    · split at hst
      · next hl =>
        cases hst
        exact openIn_snoc.mpr (.inr ⟨hop, hl.1.symm, rfl, hl.2⟩)
      · cases hst
  · -- An opening delimiter closes nothing, and does not count where its label is open.
    rcases openIn_snoc.mp ho with ⟨ho, -⟩ | ⟨-, rfl, rfl, hw⟩
    · obtain ⟨start₀, hle, hst⟩ := h.openPending label start ho
      exact ⟨start₀, hle, by rw [lookup_open, hst]; rfl⟩
    · cases hol : state.pending.lookup d.label with
      | some start₀ =>
        obtain ⟨_, e, _, rfl, -, -, rfl, -⟩ := h.pendingOpen _ _ hol
        exact ⟨e.start, (hlt e (by simp)).le, by rw [lookup_open, hol]; rfl⟩
      | none => exact ⟨d.start, le_rfl, by rw [lookup_open, hol]; simp [hw]⟩
  · rw [hsp]
    exact (h.sound i).imp_right fun hb => hb.append _
  · rw [blockIn_snoc, hop] at hb
    obtain ⟨i₀, hle, hb₀, hr⟩ := h.complete i n (hb.resolve_right fun hc => by cases hc.1)
    exact ⟨i₀, hle, hb₀.append _, by rw [hsp]; exact hr⟩

theorem PemState.Follows.closed (h : state.Follows input base past) (hon : d.opens = false)
    (hba : base.length = input.length) (hwi : d.Within input)
    (hla : ∀ e ∈ past, e.start < d.start) :
    (state.close d).Follows input base (past ++ [d]) := by
  have hsn : ∀ {label start}, OpenIn input (past ++ [d]) label start ↔
      OpenIn input past label start ∧ d.label ≠ label := by
    intro label start
    simp [openIn_snoc, hon]
  cases hop : state.pending.lookup d.label with
  | none =>
    have hsa : state.close d = state := by rw [PemState.close, hop]
    rw [hsa]
    refine ⟨h.length, fun label start hst => ?_, fun label start ho => ?_,
      h.grows, fun i => (h.sound i).imp_right fun hb => hb.append _, fun i n hb => ?_⟩
    · refine hsn.mpr ⟨h.pendingOpen label start hst, ?_⟩
      rintro rfl
      cases hop.symm.trans hst
    · exact h.openPending label start (hsn.mp ho).1
    · rcases blockIn_snoc.mp hb with hb | ⟨-, ho, -⟩
      · obtain ⟨i₀, hle, hb₀, hr⟩ := h.complete i n hb
        exact ⟨i₀, hle, hb₀.append _, hr⟩
      · obtain ⟨_, -, hst⟩ := h.openPending _ _ ho
        cases hop.symm.trans hst
  | some start =>
    -- The block that this delimiter closes.
    have ho := h.pendingOpen _ _ hop
    have hlt : start < d.start := by
      obtain ⟨_, e, _, rfl, -, -, rfl, -⟩ := ho
      exact hla e (by simp)
    have hfi := hwi.lt
    have hb₀ : BlockIn input (past ++ [d]) start (d.finish - start) :=
      blockIn_snoc.mpr (.inr ⟨hon, ho, by omega⟩)
    have hro : start < state.spans.length := by
      have := hwi.le
      rw [h.length, hba]
      omega
    have hc : state.close d = ⟨state.pending.filter fun entry => entry.1 != d.label,
        state.spans.modify start (max · (d.finish - start))⟩ := by rw [PemState.close, hop]
    have hg : ∀ i, (state.close d).spans.getD i 0 =
        if start = i then max (state.spans.getD i 0) (d.finish - start)
        else state.spans.getD i 0 := by
      intro i
      rw [hc]
      exact getD_modify _ _ _ _ hro
    have hmo : ∀ i, state.spans.getD i 0 ≤ (state.close d).spans.getD i 0 := by
      intro i
      rw [hg]
      split
      · exact le_max_left _ _
      · exact le_rfl
    refine ⟨by rw [hc]; simp [h.length], fun label s hs => ?_, fun label s hs => ?_,
      fun i => (h.grows i).trans (hmo i), fun i => ?_, fun i n hb => ?_⟩
    · rw [hc, lookup_filter_ne] at hs
      split at hs
      · cases hs
      · next hl => exact hsn.mpr ⟨h.pendingOpen label s hs, fun hd => hl hd.symm⟩
    · obtain ⟨hs, hne⟩ := hsn.mp hs
      obtain ⟨s₀, hle, hs₀⟩ := h.openPending label s hs
      exact ⟨s₀, hle, by rw [hc, lookup_filter_ne, if_neg hne.symm, hs₀]⟩
    · rw [hg]
      split
      · rename_i hi
        subst hi
        rcases le_total (state.spans.getD start 0) (d.finish - start) with hle | hle
        · rw [max_eq_right hle]
          exact .inr hb₀
        · rw [max_eq_left hle]
          exact (h.sound start).imp_right fun hb => hb.append _
      · exact (h.sound i).imp_right fun hb => hb.append _
    · rcases blockIn_snoc.mp hb with hb | ⟨-, hs, hn⟩
      · obtain ⟨i₀, hle, hin, hr⟩ := h.complete i n hb
        exact ⟨i₀, hle, hin.append _, hr.trans (hmo i₀)⟩
      · obtain ⟨s, hle, hs⟩ := h.openPending _ _ hs
        cases hop.symm.trans hs
        refine ⟨start, hle, by rw [hn]; exact hb₀, ?_⟩
        rw [hn, hg, if_pos rfl]
        exact le_max_right _ _

end

/-- **The table of blocks**: it grows, it holds nothing but blocks, and every block is
part of one in it. -/
theorem pemSpans_spec (base : List Nat) (hb : base.length = input.length) :
    ∃ state : PemState, state.spans = pemSpans input base ∧
      state.Follows input base (delimiters input) := by
  suffices ha : ∀ past, past <+: delimiters input →
      (past.foldl (PemState.step input) ⟨[], base⟩).Follows input base past from
    ⟨_, rfl, ha _ prefix_rfl⟩
  intro past hp
  induction past using List.reverseRecOn with
  | nil =>
    refine ⟨rfl, nofun, fun label start ho => ?_, fun _ => le_rfl, fun _ => .inl rfl,
      fun i n hbl => ?_⟩
    · obtain ⟨_, _, _, hds, -⟩ := ho
      simp at hds
    · obtain ⟨_, _, _, _, _, hds, -⟩ := hbl
      simp at hds
  | append_singleton past d ih =>
    have h := ih ((prefix_append _ _).trans hp)
    have hm : d ∈ delimiters input := hp.subset (by simp)
    have hl : ∀ e ∈ past, e.start < d.start := fun e he =>
      (pairwise_append.mp (delimiters_sorted.sublist hp.sublist)).2.2 e he d mem_cons_self
    rw [foldl_append, foldl_cons, foldl_nil, PemState.step]
    cases hop : d.opens with
    | true => exact h.opened hop hl
    | false => exact h.closed hop hb (delimiters_within hm) hl

end

/-! ## What stands at a place -/

section
variable {secrets : List (List UInt8)} {input : List UInt8}

theorem Recognised.bounds {i n k} (h : Recognised secrets input i n k) :
    0 < n ∧ i + n ≤ input.length := by
  cases h with
  | exact hin hl hs =>
    have hle := hs.length_le
    rw [length_drop] at hle
    omega
  | block hb => exact hb.lt (fun _ => delimiters_within) delimiters_sorted
  | token hw hsp hne =>
    have hle := (tokenSpan_bounds (input.drop i)).2
    rw [hsp, length_drop] at hle
    dsimp only at hle
    omega

theorem Recognised.keep_le {i n k} (h : Recognised secrets input i n k) : k ≤ n := by
  cases h with
  | exact => exact Nat.zero_le _
  | block => exact Nat.zero_le _
  | token hw hs hne =>
    have hle := (tokenSpan_bounds (input.drop i)).1
    rw [hs] at hle
    exact hle

/-- The part of the table that is for exact secrets. Without any, the scan is left out. -/
def Scrubber.exactSpans (scrubber : Scrubber) (input : List UInt8) : List Nat :=
  if 1 < scrubber.exact.length then (WordTrie.scan scrubber.exact input).2
  else replicate input.length 0

/-- The lengths of exact secrets that stand at a place, and zero. -/
def exactLengths (secrets : List (List UInt8)) (text : List UInt8) : Set Nat :=
  {n | n = 0 ∨ ∃ secret ∈ secrets, 8 ≤ secret.length ∧ secret <+: text ∧ secret.length = n}

theorem longestWord_greatest (secrets : List (List UInt8)) (text : List UInt8) :
    IsGreatest (exactLengths secrets text) (WordTrie.longestWord (exactSecrets secrets) text) := by
  refine ⟨?_, ?_⟩
  · by_cases h : WordTrie.longestWord (exactSecrets secrets) text = 0
    · exact .inl h
    · obtain ⟨secret, hs, hp, hl⟩ := WordTrie.exists_longestWord h
      obtain ⟨hm, h8⟩ := mem_filter.mp hs
      exact .inr ⟨secret, hm, of_decide_eq_true h8, hp, hl⟩
  · rintro n (rfl | ⟨secret, hs, h8, hp, rfl⟩)
    · exact Nat.zero_le _
    · exact WordTrie.le_longestWord (mem_filter.mpr ⟨hs, decide_eq_true h8⟩) hp

theorem longestWord_eq_zero {words : List (List UInt8)} (h : (WordTrie.build words).length ≤ 1)
    (text : List UInt8) : WordTrie.longestWord words text = 0 := by
  have hb := WordTrie.linking_build words
  refine Nat.le_zero.mp (WordTrie.longestWord_le.mpr fun word hw _ => ?_)
  obtain ⟨s, hs⟩ := Option.ne_none_iff_exists'.mp (hb.word_node word hw)
  have hlt := hb.tree.node_lt hs
  have := hb.tree.length_le hs
  omega

theorem scan_getElem? (secrets : List (List UInt8)) (input : List UInt8) (i : Fin input.length) :
    (WordTrie.scan (new secrets).exact input).2[i]? =
      some (WordTrie.longestWord (exactSecrets secrets) (input.drop i)) := by
  have hs := (WordTrie.scan_spec (WordTrie.linking_build (exactSecrets secrets)) input).2 i
  have hl : i < (WordTrie.scan (new secrets).exact input).2.length := by
    rw [WordTrie.scan_length]
    exact i.2
  rw [Fin.getElem?_fin, ← hs, getD_eq_getElem?_getD]
  change _ = some ((WordTrie.scan (new secrets).exact input).2[i.1]?.getD 0)
  rw [getElem?_eq_getElem hl, Option.getD_some]

theorem exactSpans_eq (secrets : List (List UInt8)) (input : List UInt8) :
    (new secrets).exactSpans input =
      (WordTrie.scan (new secrets).exact input).2 := by
  unfold Scrubber.exactSpans
  split
  · rfl
  · next h =>
    refine (eq_replicate_iff.mpr ⟨WordTrie.scan_length _ _, fun n hn => ?_⟩).symm
    obtain ⟨i, hi, rfl⟩ := mem_iff_getElem.mp hn
    have hs := scan_getElem? secrets input ⟨i, WordTrie.scan_length _ input ▸ hi⟩
    rw [longestWord_eq_zero (Nat.le_of_not_lt h), Fin.getElem?_fin, getElem?_eq_getElem hi] at hs
    exact Option.some.inj hs

/-- **At every place of a text the backward scan finds the longest exact secret.** -/
theorem exactSpans_longest (secrets : List (List UInt8)) (input : List UInt8) :
    (new secrets).spans input =
      pemSpans input ((new secrets).exactSpans input) ∧
    ∀ i : Fin input.length, ∃ n, ((new secrets).exactSpans input)[i]? = some n ∧
      IsGreatest (exactLengths secrets (input.drop i)) n := by
  rw [exactSpans_eq]
  exact ⟨rfl, fun i => ⟨_, scan_getElem? secrets input i, longestWord_greatest secrets _⟩⟩

/-- The table at a place: at least every exact secret there, and every block in it. -/
theorem spans_spec (secrets : List (List UInt8)) (input : List UInt8) :
    (∀ i, WordTrie.longestWord (exactSecrets secrets) (input.drop i) ≤
        ((new secrets).spans input).getD i 0) ∧
      (∀ i, ((new secrets).spans input).getD i 0 =
          WordTrie.longestWord (exactSecrets secrets) (input.drop i) ∨
        BlockIn input (delimiters input) i (((new secrets).spans input).getD i 0)) ∧
      ∀ i n, BlockIn input (delimiters input) i n → ∃ i₀ ≤ i,
        BlockIn input (delimiters input) i₀ (i + n - i₀) ∧
          i + n - i₀ ≤ ((new secrets).spans input).getD i₀ 0 := by
  have hs := (WordTrie.scan_spec (WordTrie.linking_build (exactSecrets secrets)) input).2
  obtain ⟨state, hst, hf⟩ := @pemSpans_spec input
    (WordTrie.scan (WordTrie.build (exactSecrets secrets)) input).2 (WordTrie.scan_length _ _)
  have hsp : (new secrets).spans input = state.spans := hst.symm
  rw [hsp]
  refine ⟨fun i => ?_, fun i => ?_, hf.complete⟩
  · rw [← hs]
    exact hf.grows i
  · rw [← hs]
    exact hf.sound i

theorem spanAt_recognised {i m keep} (h : (new secrets).spanAt input i = some (m, keep)) :
    Recognised secrets input i m keep := by
  unfold Scrubber.spanAt at h
  dsimp only at h
  generalize hs : ((new secrets).spans input).getD i 0 = span at h
  generalize ht : (if atWordStart input i then tokenSpan (input.drop i) else (0, 0)) = token at h
  obtain ⟨length, kept⟩ := token
  dsimp only at h
  split at h
  · cases h
  · rename_i hp
    cases h
    by_cases hlt : span < length
    · rw [max_eq_right hlt.le, if_pos hlt]
      split at ht
      · rename_i hw
        exact .token hw ht (by omega)
      · cases ht
        omega
    · have hle : length ≤ span := not_lt.mp hlt
      rw [max_eq_left hle] at hp ⊢
      rw [if_neg hlt]
      rcases (spans_spec secrets input).2.1 i with hex | hb
      · rw [hs] at hex
        subst hex
        obtain ⟨word, hw, hst, hl⟩ := WordTrie.exists_longestWord hp
        obtain ⟨hin, hlo⟩ := mem_filter.mp hw
        rw [← hl]
        exact .exact hin (by simpa using hlo) hst
      · rw [hs] at hb
        exact .block hb

theorem BlockIn.first {i n} (h : BlockIn input (delimiters input) i n) :
    input[i]? = some 45 := by
  obtain ⟨before, d, middle, e, after, hds, -, -, -, -, -, rfl, -⟩ := h
  exact (delimiters_within (hds ▸ by simp)).first

theorem Recognised.first_of_kept {i m keep} (h : Recognised secrets input i m keep)
    (hk : 0 < keep) : input[i]? = some 66 := by
  cases h with
  | exact => cases hk
  | block => cases hk
  | token hw ht hne =>
    unfold tokenSpan at ht
    split at ht
    · rename_i hb
      obtain ⟨tail, hd⟩ := isPrefixOf_iff_prefix.mp hb
      have hf : (input.drop i)[0]? = some 66 := by rw [← hd]; rfl
      rwa [getElem?_drop] at hf
    · have hz : keep = 0 := by
        simp only [TokenPattern.span, akiaSpan] at ht
        split_ifs at ht <;> cases ht <;> rfl
      omega

/-- Every secret is one that the scan would replace where it begins, or a block that ends with a
longer one which the scan would replace. -/
theorem Recognised.reach {i n k} (h : Recognised secrets input i n k) :
    ∃ i₀ ≤ i, (i₀ = i ∨ BlockIn input (delimiters input) i₀ (i + n - i₀)) ∧
      ∃ m keep, (new secrets).spanAt input i₀ = some (m, keep) ∧ i + n ≤ i₀ + m := by
  -- A table entry or a token of some length is replaced with at least that length.
  have hr : ∀ i₀ n₀, 0 < n₀ → (n₀ ≤ ((new secrets).spans input).getD i₀ 0 ∨
        atWordStart input i₀ = true ∧ n₀ ≤ (tokenSpan (input.drop i₀)).1) →
      ∃ m keep, (new secrets).spanAt input i₀ = some (m, keep) ∧ n₀ ≤ m := by
    intro i₀ n₀ hp hre
    have hm : n₀ ≤ max (((new secrets).spans input).getD i₀ 0)
        (if atWordStart input i₀ then tokenSpan (input.drop i₀) else (0, 0)).1 := by
      rcases hre with hle | ⟨hw, hle⟩
      · exact hle.trans (le_max_left _ _)
      · rw [if_pos hw]
        exact hle.trans (le_max_right _ _)
    unfold Scrubber.spanAt
    dsimp only
    rw [if_neg (by omega)]
    exact ⟨_, _, rfl, hm⟩
  have hp := h.bounds.1
  cases h with
  | exact hin hl hst =>
    obtain ⟨m, keep, hs, hle⟩ := hr i _ hp (.inl ((WordTrie.le_longestWord
      (mem_filter.mpr ⟨hin, by simpa using hl⟩) hst).trans
      ((spans_spec secrets input).1 i)))
    exact ⟨i, le_rfl, .inl rfl, m, keep, hs, by omega⟩
  | block hb =>
    obtain ⟨i₀, hle₀, hb₀, hre⟩ := (spans_spec secrets input).2.2 i n hb
    have hp₀ := (hb₀.lt (fun _ => delimiters_within) delimiters_sorted).1
    obtain ⟨m, keep, hs, hle⟩ := hr i₀ _ hp₀ (.inl hre)
    exact ⟨i₀, hle₀, .inr hb₀, m, keep, hs, by omega⟩
  | token hw ht hne =>
    obtain ⟨m, keep, hs, hle⟩ := hr i n hp (.inr ⟨hw, by rw [ht]⟩)
    exact ⟨i, le_rfl, .inl rfl, m, keep, hs, by omega⟩

/-! ## The scan -/

theorem length_placed (input : List UInt8) : (placed input).length = input.length := by
  simp [placed]

theorem placed_rest {before rest : List Segment} (ht : before.reverse ++ rest = placed input)
    {j k : Nat} {b : UInt8} (h : rest[k]? = some (.copied j b)) : j = before.length + k := by
  have hg : (placed input)[before.length + k]? = some (.copied j b) := by
    rw [← ht, getElem?_append_right (by simp), length_reverse, Nat.add_sub_cancel_left, h]
  rw [placed, getElem?_map, getElem?_zipIdx] at hg
  obtain ⟨p, hp, hs⟩ := Option.map_eq_some_iff.mp hg
  obtain ⟨byte, -, rfl⟩ := Option.map_eq_some_iff.mp hp
  cases hs
  omega

theorem mem_placed_take {before rest : List Segment} (ht : before.reverse ++ rest = placed input)
    {j keep : Nat} (hj : j < input.length) :
    (∃ b, .copied j b ∈ rest.take keep) ↔ before.length ≤ j ∧ j < before.length + keep := by
  constructor
  · rintro ⟨b, h⟩
    obtain ⟨k, hk⟩ := mem_iff_getElem?.mp h
    rw [getElem?_take] at hk
    split at hk
    · have := placed_rest ht hk
      omega
    · cases hk
  · rintro ⟨hle, hlt⟩
    refine ⟨input[j], mem_iff_getElem?.mpr ⟨j - before.length, ?_⟩⟩
    have hp : (placed input)[j]? = some (.copied j input[j]) := by simp [placed, hj]
    rw [← ht, getElem?_append_right (by simpa using hle), length_reverse] at hp
    rw [getElem?_take, if_pos (by omega), hp]

theorem hit_sound (secrets : List (List UInt8)) (input : List UInt8) :
    SoundOn ((new secrets).hit input) (placed input) := by
  intro before rest length new ht hh
  obtain ⟨⟨m, keep⟩, hs, heq⟩ := Option.map_eq_some_iff.mp hh
  cases heq
  obtain ⟨hp, hle⟩ := (spanAt_recognised hs).bounds
  have hl := congrArg List.length ht
  rw [length_append, length_reverse, length_placed] at hl
  exact ⟨hp, by omega⟩

/-- The places the scan looks at. -/
inductive Visited (secrets : List (List UInt8)) (input : List UInt8) : Nat → Prop
  | zero : Visited secrets input 0
  | miss {p : Nat} : Visited secrets input p → (new secrets).spanAt input p = none →
      Visited secrets input (p + 1)
  | hit {p m keep : Nat} : Visited secrets input p →
      (new secrets).spanAt input p = some (m, keep) → Visited secrets input (p + m)

/-- The byte is in a stretch that the scan replaces, behind what is kept of it. -/
def Removed (secrets : List (List UInt8)) (input : List UInt8) (j : Nat) : Prop :=
  ∃ p m keep, Visited secrets input p ∧ (new secrets).spanAt input p = some (m, keep) ∧
    p + keep ≤ j ∧ j < p + m

/-- The byte is kept of a token that begins at `i`. -/
def Kept (secrets : List (List UInt8)) (input : List UInt8) (i j : Nat) : Prop :=
  ∃ m keep, Recognised secrets input i m keep ∧ j < i + keep

/-- The scan looks at no place inside a stretch that it replaces. -/
theorem Visited.disjoint {q} (hq : Visited secrets input q) {p m keep}
    (hp : Visited secrets input p) (hs : (new secrets).spanAt input p = some (m, keep))
    (hlt : p < q) : p + m ≤ q := by
  induction q using Nat.strong_induction_on generalizing p m keep with
  | _ q ih =>
    cases hq with
    | zero => cases hlt
    | @miss p' hp' hno =>
      rcases Nat.lt_succ_iff_lt_or_eq.mp hlt with hlt | rfl
      · have := ih p' (by omega) hp' hp hs hlt
        omega
      · cases hno.symm.trans hs
    | @hit p' m' keep' hp' hs' =>
      have hpos := (spanAt_recognised hs').bounds.1
      rcases Nat.lt_trichotomy p p' with hpp | rfl | hpp
      · have := ih p' (by omega) hp' hp hs hpp
        omega
      · cases hs'.symm.trans hs
        omega
      · have := ih p hlt hp hp' hs' hpp
        omega

theorem visited_or_inside (secrets : List (List UInt8)) (input : List UInt8) (i : Nat) :
    Visited secrets input i ∨ ∃ p m keep, Visited secrets input p ∧
      (new secrets).spanAt input p = some (m, keep) ∧ p < i ∧ i < p + m := by
  induction i with
  | zero => exact .inl .zero
  | succ i ih =>
    rcases ih with hv | ⟨p, m, keep, hv, hs, hlt, hin⟩
    · cases hs : (new secrets).spanAt input i with
      | none => exact .inl (hv.miss hs)
      | some span =>
        obtain ⟨m, keep⟩ := span
        have hpos := (spanAt_recognised hs).bounds.1
        rcases Nat.eq_or_lt_of_le (Nat.succ_le_of_lt hpos) with rfl | hm
        · exact .inl (hv.hit hs)
        · exact .inr ⟨i, m, keep, hv, hs, by omega, by omega⟩
    · rcases Nat.eq_or_lt_of_le (Nat.succ_le_of_lt hin) with heq | hin
      · exact .inl ((show i + 1 = p + m from heq) ▸ hv.hit hs)
      · exact .inr ⟨p, m, keep, hv, hs, by omega, hin⟩

theorem Visited.removed_iff {p m keep j} (hp : Visited secrets input p)
    (hs : (new secrets).spanAt input p = some (m, keep)) (hle : p ≤ j) (hlt : j < p + m) :
    Removed secrets input j ↔ p + keep ≤ j := by
  refine ⟨fun ⟨q, m', keep', hq, hs', hfrom, hto⟩ => ?_, fun h => ⟨p, m, keep, hp, hs, h, hlt⟩⟩
  rcases Nat.lt_trichotomy q p with hqp | rfl | hpq
  · have := hp.disjoint hq hs' hqp
    omega
  · cases hs'.symm.trans hs
    exact hfrom
  · have := hq.disjoint hp hs hpq
    omega

theorem Visited.not_removed {p} (hp : Visited secrets input p)
    (hs : (new secrets).spanAt input p = none) : ¬ Removed secrets input p := by
  rintro ⟨q, m, keep, hq, hs', hfrom, hto⟩
  rcases Nat.lt_trichotomy q p with hqp | rfl | hpq
  · have := hp.disjoint hq hs' hqp
    omega
  · cases hs.symm.trans hs'
  · omega

/-- **What the scan copies** is what is in no stretch that it replaces. -/
theorem copied_iff {j} (hj : j < input.length) :
    (∃ b, .copied j b ∈ (new secrets).segments input) ↔ ¬ Removed secrets input j := by
  -- The scan copies what is left of that, from the place it looks at.
  have hsc := scan_induction_on (P := fun before rest => before.reverse ++ rest = placed input →
    Visited secrets input before.length →
      ((∃ b, .copied j b ∈ splice ((new secrets).hit input) before 0 rest) ↔
        before.length ≤ j ∧ ¬ Removed secrets input j))
    (hit_sound secrets input) ?_ ?_ ?_ [] (placed input) rfl rfl .zero
  · simpa [Scrubber.segments] using hsc
  · intro before ht _
    have hl := congrArg List.length ht
    simp only [append_nil, length_reverse, length_placed] at hl
    simp
    omega
  · intro before found rest new hne ht hhi ih _ hv
    obtain ⟨⟨m, keep⟩, hsp, heq⟩ := Option.map_eq_some_iff.mp hhi
    rw [splice_hit hhi hne]
    cases heq
    have hk := (spanAt_recognised hsp).keep_le
    have ih := ih (by simpa using ht) (by
      rw [length_append, length_reverse, Nat.add_comm]
      exact hv.hit hsp)
    rw [length_append, length_reverse, Nat.add_comm] at ih
    have hin := @Visited.removed_iff secrets input before.length found.length keep j hv hsp
    simp only [mem_append, exists_or, ih, mem_placed_take ht hj, mem_singleton, reduceCtorEq,
      or_false]
    grind
  · intro before b' rest ht hhi ih _ hv
    have hsp := Option.map_eq_none_iff.mp hhi
    rw [splice_miss hhi]
    have ih := ih (by simpa using ht) (hv.miss hsp)
    have hb := @mem_placed_take input before (b' :: rest) ht j 1 hj
    simp only [take_succ_cons, take_zero, mem_singleton] at hb
    have hn := hv.not_removed hsp
    simp only [mem_cons, exists_or, ih, hb, length_cons]
    grind

end

end MacWorker.Session
